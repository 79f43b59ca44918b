import Memoir.TypeGetters
import Mathlib.Data.List.Find
import Mathlib.Data.List.Forall2
import Mathlib.Data.List.Pairwise

/-! Which sequences of calls of the type getters find one address for one structure. -/
namespace Memoir
namespace TypeGetters

theorem lookup_front {α β : Type} [DecidableEq α] (map : Map α β) (key : α) (value : β) (other : α) :
    List.lookup other ((key,value) :: map) = if other = key then some value else map.lookup other := by
  rw [List.lookup_cons]
  by_cases same : other = key
  · rw [same,beq_self_eq_true,if_pos rfl]
  · rw [beq_eq_false_iff_ne.mpr same,if_neg same]

theorem lookup_setNested {α β γ : Type} [DecidableEq α] [DecidableEq β] (map : Map α (Map β γ))
    (key : α) (key' : β) (value : γ) (other : α) (other' : β) :
    ((setNested map key key' value).lookup other).bind (·.lookup other') =
      if other = key ∧ other' = key' then some value
      else (map.lookup other).bind (·.lookup other') := by
  induction map with
  | nil =>
    simp only [setNested,lookup_front]
    by_cases same : other = key
    · simp [same,lookup_front]
    · simp [same]
  | cons entry rest ih =>
    obtain ⟨first,inner⟩ := entry
    unfold setNested
    by_cases here : key = first
    · subst here
      rw [if_pos rfl]
      simp only [lookup_front]
      by_cases same : other = key
      · simp [same,lookup_front]
      · simp [same]
    · rw [if_neg here]
      simp only [lookup_front]
      by_cases isFirst : other = first
      · simp [isFirst,Ne.symm here]
      · rw [if_neg isFirst,if_neg isFirst]
        exact ih

section
variable {context : Context} {key : Key} {type : Pointer} {object : Object}

theorem find_register (context : Context) (key other : Key) (type : Pointer) :
    (context.register type key).find other = if other = key then some type else context.find other := by
  cases key <;> cases other <;>
    simp only [Context.register,Context.find,Option.bind_eq_bind,lookup_front,lookup_setNested,
      Key.reference.injEq,Key.struct.injEq,Key.fieldArray.injEq,Key.tensor.injEq,
      Key.assocArray.injEq,Key.sequence.injEq,reduceCtorEq,if_false]

theorem register_objects (context : Context) (type : Pointer) (key : Key) :
    (context.register type key).objects = context.objects := by
  cases key <;> rfl

theorem register_get (context : Context) (type : Pointer) (key : Key) (other : Pointer) :
    (context.register type key).get other = context.get other := by
  simp only [Context.get,register_objects]

theorem register_staticTensorTypes (context : Context) (type : Pointer) (key : Key) :
    (context.register type key).staticTensorTypes = context.staticTensorTypes := by
  cases key <;> rfl

theorem objectAt_lt {objects : List Object} {index : Nat} (found : objectAt objects index = some object) :
    index < objects.length := by
  induction objects with
  | nil => exact absurd found (by simp [objectAt])
  | cons newest older ih =>
    unfold objectAt at found
    split_ifs at found with isNewest
    · simp [isNewest]
    · exact Nat.lt_succ_of_lt (ih found)

theorem get_known (found : context.get type = some object) : type.Known context.objects := by
  cases type with
  | allocated index => exact objectAt_lt found
  | integer _ | float | double | pointer => exact trivial

end

def Object.parts : Object → List Pointer
  | .reference type | .fieldArray type _ | .staticTensor type _ _ | .tensor type _
  | .sequence type => [type]
  | .struct _ _ => []
  | .assocArray keyType valueType => [keyType,valueType]

def Closed : List Object → Prop
  | [] => True
  | object :: older => (∀ part ∈ object.parts, part.Known older) ∧ Closed older

theorem Pointer.Known.mono {type : Pointer} {object : Object} {older : List Object}
    (known : type.Known older) : type.Known (object :: older) := by
  cases type with
  | allocated index => exact Nat.lt_succ_of_lt known
  | integer _ | float | double | pointer => exact trivial

theorem describe_older {type : Pointer} (object : Object) {older : List Object}
    (known : type.Known older) : describe (object :: older) type = describe older type := by
  cases type with
  | allocated index => rw [describe,if_neg (Nat.ne_of_lt known)]
  | integer _ | float | double | pointer => cases older <;> rfl

theorem shape_congr {object : Object} {shapeOf shapeOf' : Pointer → Option Shape}
    (same : ∀ part ∈ object.parts, shapeOf part = shapeOf' part) :
    object.shape shapeOf = object.shape shapeOf' := by
  cases object <;> simp_all [Object.shape,Object.parts]

theorem shape_isSome {object : Object} {shapeOf : Pointer → Option Shape}
    (parts : ∀ part ∈ object.parts, ∃ shape, shapeOf part = some shape) :
    ∃ shape, object.shape shapeOf = some shape := by
  cases object with
  | struct name _ => exact ⟨_,rfl⟩
  | assocArray keyType valueType =>
    obtain ⟨keyShape,isKey⟩ := parts keyType (by simp [Object.parts])
    obtain ⟨valueShape,isValue⟩ := parts valueType (by simp [Object.parts])
    exact ⟨_,by rw [Object.shape,isKey,isValue]; rfl⟩
  | reference type | fieldArray type _ | staticTensor type _ _ | tensor type _ | sequence type =>
    obtain ⟨shape,isShape⟩ := parts type (by simp [Object.parts])
    exact ⟨_,by rw [Object.shape,isShape]; rfl⟩

theorem describe_known {objects : List Object} (closed : Closed objects) {type : Pointer}
    (known : type.Known objects) : ∃ shape, describe objects type = some shape := by
  induction objects generalizing type with
  | nil =>
    cases type with
    | allocated index => exact absurd known (Nat.not_lt_zero index)
    | integer _ | float | double | pointer => exact ⟨_,rfl⟩
  | cons object older ih =>
    cases type with
    | allocated index =>
      unfold describe
      split_ifs with isNewest
      · exact shape_isSome fun part member => ih closed.2 (closed.1 part member)
      · have below : index < older.length + 1 := known
        refine ih closed.2 ?_
        exact Nat.lt_of_le_of_ne (by omega) isNewest
    | integer _ | float | double | pointer => exact ⟨_,rfl⟩

theorem parts_known {objects : List Object} (closed : Closed objects) {index : Nat} {object : Object}
    (found : objectAt objects index = some object) : ∀ part ∈ object.parts, part.Known objects := by
  induction objects with
  | nil => exact absurd found (by simp [objectAt])
  | cons newest older ih =>
    intro part member
    unfold objectAt at found
    split_ifs at found
    · obtain rfl := Option.some.inj found
      exact (closed.1 part member).mono
    · exact (ih closed.2 found part member).mono

theorem describe_allocated {objects : List Object} (closed : Closed objects) {index : Nat}
    {object : Object} (found : objectAt objects index = some object) :
    describe objects (.allocated index) = object.shape (describe objects) := by
  induction objects generalizing object with
  | nil => exact absurd found (by simp [objectAt])
  | cons newest older ih =>
    unfold objectAt at found
    unfold describe
    split_ifs at found with isNewest
    · obtain rfl := Option.some.inj found
      rw [if_pos isNewest]
      exact shape_congr fun part member => (describe_older newest (closed.1 part member)).symm
    · rw [if_neg isNewest,ih closed.2 found]
      exact shape_congr fun part member =>
        (describe_older newest (parts_known closed.2 found part member)).symm

/-- A type is a static object, or an allocated one. -/
theorem describe_cases {context : Context} (closed : Closed context.objects) {type : Pointer}
    {shape : Shape} (described : describe context.objects type = some shape) :
    describe [] type = some shape ∨
      ∃ object, context.get type = some object ∧
        object.shape (describe context.objects) = some shape := by
  cases type with
  | integer _ | float | double | pointer =>
    left
    rw [← described]
    cases context.objects <;> rfl
  | allocated index =>
    right
    cases found : objectAt context.objects index with
    | some object =>
      rw [describe_allocated closed found] at described
      exact ⟨object,found,described⟩
    | none =>
      exfalso
      revert described found
      induction context.objects with
      | nil => exact fun described => absurd described (by simp [describe])
      | cons newest older ih =>
        unfold describe objectAt
        split_ifs
        · exact fun _ found => absurd found (by simp)
        · exact ih

/-- What a description says about an object. -/
theorem object_of_shape {object : Object} {shapeOf : Pointer → Option Shape} {shape : Shape}
    (made : object.shape shapeOf = some shape) : match shape with
      | .reference inner => ∃ type, object = .reference type ∧ shapeOf type = some inner
      | .struct name => ∃ fieldTypes, object = .struct name fieldTypes
      | .fieldArray inner fieldIndex =>
        ∃ type, object = .fieldArray type fieldIndex ∧ shapeOf type = some inner
      | .staticTensor inner lengths =>
        ∃ type number, object = .staticTensor type number lengths ∧ shapeOf type = some inner
      | .tensor inner number => ∃ type, object = .tensor type number ∧ shapeOf type = some inner
      | .assocArray inner inner' => ∃ type type', object = .assocArray type type' ∧
        shapeOf type = some inner ∧ shapeOf type' = some inner'
      | .sequence inner => ∃ type, object = .sequence type ∧ shapeOf type = some inner
      | _ => False := by
  cases object with
  | reference type =>
    obtain ⟨inner,found,same⟩ := Option.bind_eq_some_iff.mp made
    obtain rfl := Option.some.inj same
    exact ⟨type,rfl,found⟩
  | struct name fieldTypes =>
    obtain rfl := Option.some.inj made
    exact ⟨fieldTypes,rfl⟩
  | fieldArray type fieldIndex =>
    obtain ⟨inner,found,same⟩ := Option.bind_eq_some_iff.mp made
    obtain rfl := Option.some.inj same
    exact ⟨type,rfl,found⟩
  | staticTensor type number lengths =>
    obtain ⟨inner,found,same⟩ := Option.bind_eq_some_iff.mp made
    obtain rfl := Option.some.inj same
    exact ⟨type,number,rfl,found⟩
  | tensor type number =>
    obtain ⟨inner,found,same⟩ := Option.bind_eq_some_iff.mp made
    obtain rfl := Option.some.inj same
    exact ⟨type,rfl,found⟩
  | assocArray keyType valueType =>
    obtain ⟨inner,found,rest⟩ := Option.bind_eq_some_iff.mp made
    obtain ⟨inner',found',same⟩ := Option.bind_eq_some_iff.mp rest
    obtain rfl := Option.some.inj same
    exact ⟨keyType,valueType,rfl,found,found'⟩
  | sequence type =>
    obtain ⟨inner,found,same⟩ := Option.bind_eq_some_iff.mp made
    obtain rfl := Option.some.inj same
    exact ⟨type,rfl,found⟩

theorem static_shape {object : Object} {shapeOf : Pointer → Option Shape} {type : Pointer}
    {shape : Shape} (made : object.shape shapeOf = some shape) : describe [] type ≠ some shape := by
  intro static
  have isObject := object_of_shape made
  cases type with
  | allocated index => exact absurd static (by simp [describe])
  | integer _ | float | double | pointer =>
    obtain rfl := Option.some.inj static
    exact isObject

theorem static_injective {type type' : Pointer} {shape : Shape}
    (described : describe [] type = some shape) (described' : describe [] type' = some shape) :
    type = type' := by
  cases shape <;> cases type <;> cases type' <;> simp_all [describe]

def Object.key : Object → Option Key
  | .reference referencedType => some (.reference referencedType)
  | .struct name _ => some (.struct name)
  | .fieldArray structType fieldIndex => some (.fieldArray structType fieldIndex)
  | .staticTensor _ _ _ => none
  | .tensor elementType numberOfDimensions => some (.tensor elementType numberOfDimensions)
  | .assocArray keyType valueType => some (.assocArray keyType valueType)
  | .sequence elementType => some (.sequence elementType)

def Call.key : Call → Option Key
  | .reference referencedType => some (.reference referencedType)
  | .defineStruct name _ | .struct name => some (.struct name)
  | .fieldArray structType fieldIndex => some (.fieldArray structType fieldIndex)
  | .tensor elementType numDimensions => some (.tensor elementType numDimensions)
  | .assocArray keyType valueType => some (.assocArray keyType valueType)
  | .sequence elementType => some (.sequence elementType)
  | _ => none

/-- Every type is in its cache, and under what it was made for. -/
structure Invariant (calls : List Call) (context : Context) : Prop where
  closed : Closed context.objects
  keyed : ∀ key type, context.find key = some type ↔
    ∃ object, context.get type = some object ∧ object.key = some key
  staticTensors : ∀ elementType type, (elementType,type) ∈ context.staticTensorTypes ↔
    ∃ number lengths, context.get type = some (.staticTensor elementType number lengths)
  requested : ∀ type elementType number lengths,
    context.get type = some (.staticTensor elementType number lengths) →
      number = lengths.length % 2 ^ 32 ∧ .staticTensor elementType lengths ∈ calls
  searched : ∀ elementType lengths, .staticTensor elementType lengths ∈ calls →
    lengths.length < 2 ^ 32 → (context.search elementType lengths).isSome
  unique : ∀ type type' elementType number lengths lengths',
    context.get type = some (.staticTensor elementType number lengths) →
    context.get type' = some (.staticTensor elementType number lengths') →
      lengths.length < 2 ^ 32 → lengths'.length < 2 ^ 32 → type = type'

structure Grows (before after : Context) : Prop where
  get : ∀ type object, before.get type = some object → after.get type = some object
  find : ∀ key type, before.find key = some type → after.find key = some type
  staticTensors : before.staticTensorTypes <+: after.staticTensorTypes

theorem Grows.refl (context : Context) : Grows context context :=
  ⟨fun _ _ found => found,fun _ _ found => found,List.prefix_refl _⟩

theorem Grows.trans {before middle after : Context} (first : Grows before middle)
    (second : Grows middle after) : Grows before after :=
  ⟨fun _ _ found => second.get _ _ (first.get _ _ found),
    fun _ _ found => second.find _ _ (first.find _ _ found),
    first.staticTensors.trans second.staticTensors⟩

section
variable {calls : List Call} {context : Context}

theorem mem_existingTypes {elementType type : Pointer} :
    type ∈ context.existingTypes elementType ↔ (elementType,type) ∈ context.staticTensorTypes := by
  simp [Context.existingTypes]

theorem hasDimensions_iff {number : Nat} {type : Pointer} : context.hasDimensions number type = true ↔
    ∃ elementType lengths, context.get type = some (.staticTensor elementType number lengths) := by
  unfold Context.hasDimensions
  split
  · rename_i elementType number' lengths found
    simp [found,eq_comm]
  · rename_i other
    simp only [Bool.false_eq_true,false_iff]
    rintro ⟨elementType,lengths,found⟩
    exact other _ _ _ found

theorem search_some (invariant : Invariant calls context) {elementType type : Pointer}
    {lengths : List Nat} (found : context.search elementType lengths = some type) :
    ∃ lengths', context.get type = some (.staticTensor elementType lengths.length lengths') := by
  obtain ⟨elementType',lengths',isTensor⟩ := hasDimensions_iff.mp (List.find?_some found)
  have member := mem_existingTypes.mp (List.mem_of_find?_eq_some found)
  obtain ⟨number,_,isTensor'⟩ := (invariant.staticTensors _ _).mp member
  rw [isTensor] at isTensor'
  obtain ⟨rfl,_,_⟩ := Object.staticTensor.inj (Option.some.inj isTensor')
  exact ⟨lengths',isTensor⟩

theorem search_none (invariant : Invariant calls context) {elementType type : Pointer}
    {number : Nat} {lengths lengths' : List Nat} (missing : context.search elementType lengths = none)
    (found : context.get type = some (.staticTensor elementType number lengths')) :
    number ≠ lengths.length := by
  rintro rfl
  have member := (invariant.staticTensors elementType type).mpr ⟨_,_,found⟩
  have fails := List.find?_eq_none.mp missing type (mem_existingTypes.mpr member)
  exact fails (hasDimensions_iff.mpr ⟨_,_,found⟩)

theorem Grows.find_existing {after : Context} (grows : Grows context after)
    (invariant : Invariant calls context) (elementType : Pointer) (lengths : List Nat) :
    (context.existingTypes elementType).find? (after.hasDimensions lengths.length) =
      context.search elementType lengths := by
  refine List.find?_congr fun other member => ?_
  obtain ⟨number,lengths',isTensor⟩ := (invariant.staticTensors _ _).mp (mem_existingTypes.mp member)
  simp only [Context.hasDimensions,isTensor,grows.get _ _ isTensor]

/-- The first match stays the first one. -/
theorem Grows.search {after : Context} (grows : Grows context after)
    (invariant : Invariant calls context) {elementType type : Pointer} {lengths : List Nat}
    (found : context.search elementType lengths = some type) :
    after.search elementType lengths = some type := by
  obtain ⟨more,same⟩ := grows.staticTensors
  have appended : after.existingTypes elementType = context.existingTypes elementType ++
      (more.filter fun entry => entry.1 = elementType).map Prod.snd := by
    simp [Context.existingTypes,← same]
  rw [Context.search,appended,List.find?_append,grows.find_existing invariant,found,Option.some_or]

theorem allocate_get (context : Context) (object : Object) (type : Pointer) :
    (context.allocate object).1.get type =
      if type = (context.allocate object).2 then some object else context.get type := by
  cases type with
  | allocated index => simp [Context.get,Context.allocate,objectAt]
  | integer _ | float | double | pointer => rfl

theorem new_ne {type : Pointer} {object : Object} (new : Object)
    (found : context.get type = some object) : type ≠ (context.allocate new).2 := by
  rintro rfl
  exact absurd (get_known found) (Nat.lt_irrefl _)

theorem Grows.allocate (context : Context) (object : Object) :
    Grows context (context.allocate object).1 := by
  refine ⟨fun type object' found => ?_,fun key type found => ?_,List.prefix_refl _⟩
  · rw [allocate_get,if_neg (new_ne object found),found]
  · rw [← found]
    cases key <;> rfl

theorem Grows.register {key : Key} (missing : context.find key = none) (type : Pointer) :
    Grows context (context.register type key) := by
  refine ⟨fun other object found => ?_,fun other type' found => ?_,?_⟩
  · rw [register_get,found]
  · rw [find_register]
    split_ifs with same
    · rw [same,missing] at found
      exact absurd found (by simp)
    · exact found
  · exact ⟨[],by rw [register_staticTensorTypes,List.append_nil]⟩

theorem key_ne_staticTensor {object : Object} {key : Key} (isKey : object.key = some key)
    {elementType : Pointer} {number : Nat} {lengths : List Nat} :
    object ≠ .staticTensor elementType number lengths := by
  rintro rfl
  exact absurd isKey (by simp [Object.key])

theorem Invariant.other (invariant : Invariant calls context) {call : Call}
    (other : ∀ elementType lengths, .staticTensor elementType lengths ≠ call) :
    Invariant (calls ++ [call]) context := by
  have same (elementType : Pointer) (lengths : List Nat) :
      .staticTensor elementType lengths ∈ calls ++ [call] ↔
        .staticTensor elementType lengths ∈ calls := by
    simp [other]
  refine ⟨invariant.closed,invariant.keyed,invariant.staticTensors,?_,?_,invariant.unique⟩
  · intro type elementType number lengths isTensor
    rw [same]
    exact invariant.requested type elementType number lengths isTensor
  · intro elementType lengths member
    exact invariant.searched elementType lengths ((same _ _).mp member)

/-- A call that asks for a type with a key. -/
theorem Invariant.intern (invariant : Invariant calls context) {key : Key} {object : Object}
    (isKey : object.key = some key) (known : ∀ part ∈ object.parts, part.Known context.objects) :
    Invariant calls (context.intern key object).1 ∧ Grows context (context.intern key object).1 ∧
      (context.intern key object).1.find key = some (context.intern key object).2 := by
  unfold Context.intern
  cases found : context.find key with
  | some type => exact ⟨invariant,.refl context,found⟩
  | none =>
    have missing : (context.allocate object).1.find key = none := by
      rw [← found]
      cases key <;> rfl
    have grows := (Grows.allocate context object).trans
      (Grows.register missing (context.allocate object).2)
    have get_eq (type : Pointer) :
        ((context.allocate object).1.register (context.allocate object).2 key).get type =
          if type = (context.allocate object).2 then some object else context.get type := by
      rw [register_get,allocate_get]
    have tensor_iff (type elementType : Pointer) (number : Nat) (lengths : List Nat) :
        ((context.allocate object).1.register (context.allocate object).2 key).get type =
            some (.staticTensor elementType number lengths) ↔
          context.get type = some (.staticTensor elementType number lengths) := by
      rw [get_eq]
      constructor
      · intro isTensor
        split_ifs at isTensor
        · exact absurd (Option.some.inj isTensor) (key_ne_staticTensor isKey)
        · exact isTensor
      · intro isTensor
        rw [if_neg (new_ne object isTensor),isTensor]
    refine ⟨⟨?_,?_,?_,?_,?_,?_⟩,grows,by rw [find_register,if_pos rfl]⟩
    · rw [register_objects]
      exact ⟨known,invariant.closed⟩
    · intro other type
      rw [find_register,get_eq]
      have old : (context.allocate object).1.find other = context.find other := by
        cases other <;> rfl
      rw [old]
      constructor
      · intro isFound
        split_ifs at isFound with same
        · obtain rfl := Option.some.inj isFound
          exact ⟨object,if_pos rfl,same ▸ isKey⟩
        · obtain ⟨object',isObject,isKey'⟩ := (invariant.keyed other type).mp isFound
          exact ⟨object',by rw [if_neg (new_ne object isObject),isObject],isKey'⟩
      · rintro ⟨object',isObject,isKey'⟩
        split_ifs at isObject with isNew
        · obtain rfl := Option.some.inj isObject
          obtain rfl := Option.some.inj (isKey.symm.trans isKey')
          rw [if_pos rfl,isNew]
        · have isFound := (invariant.keyed other type).mpr ⟨object',isObject,isKey'⟩
          rw [if_neg,isFound]
          rintro rfl
          rw [found] at isFound
          exact absurd isFound (by simp)
    · intro elementType type
      rw [register_staticTensorTypes]
      simp only [tensor_iff]
      exact invariant.staticTensors elementType type
    · intro type elementType number lengths
      rw [tensor_iff]
      exact invariant.requested type elementType number lengths
    · intro elementType lengths member short
      obtain ⟨type,isFirst⟩ := Option.isSome_iff_exists.mp
        (invariant.searched elementType lengths member short)
      rw [grows.search invariant isFirst]
      rfl
    · intro type type' elementType number lengths lengths'
      rw [tensor_iff,tensor_iff]
      exact invariant.unique type type' elementType number lengths lengths'

/-- What a call that has been answered finds again. -/
def Call.Answered (context : Context) (result : Pointer) : Call → Prop
  | .integer type => result = .integer type
  | .float => result = .float
  | .double => result = .double
  | .pointer => result = .pointer
  | .staticTensor elementType lengths =>
    (lengths.length < 2 ^ 32 → context.search elementType lengths = some result) ∧
      ∃ number lengths', context.get result = some (.staticTensor elementType number lengths')
  | call => ∃ key, call.key = some key ∧ context.find key = some result

theorem Grows.answered {after : Context} (grows : Grows context after)
    (invariant : Invariant calls context) {result : Pointer} {call : Call}
    (answered : call.Answered context result) : call.Answered after result := by
  cases call with
  | integer _ | float | double | pointer => exact answered
  | staticTensor elementType lengths =>
    obtain ⟨searched,number,lengths',isTensor⟩ := answered
    exact ⟨fun short => grows.search invariant (searched short),number,lengths',
      grows.get _ _ isTensor⟩
  | reference _ | defineStruct _ _ | struct _ | fieldArray _ _ | tensor _ _ | assocArray _ _
  | sequence _ =>
    obtain ⟨key,isKey,isFound⟩ := answered
    exact ⟨key,isKey,grows.find _ _ isFound⟩

/-- A static tensor type that the search has not found. -/
theorem Invariant.added (invariant : Invariant calls context) {elementType : Pointer}
    {lengths : List Nat} (known : elementType.Known context.objects)
    (missing : context.search elementType lengths = none) {after : Context}
    (objects : after.objects =
      .staticTensor elementType (lengths.length % 2 ^ 32) lengths :: context.objects)
    (sameKeys : ∀ key, after.find key = context.find key)
    (inserted : after.staticTensorTypes =
      context.staticTensorTypes ++ [(elementType,.allocated context.objects.length)]) :
    Invariant (calls ++ [.staticTensor elementType lengths]) after ∧ Grows context after ∧
      (Call.staticTensor elementType lengths).Answered after (.allocated context.objects.length) := by
  have get_eq (type : Pointer) : after.get type =
      if type = .allocated context.objects.length then
        some (.staticTensor elementType (lengths.length % 2 ^ 32) lengths)
      else context.get type := by
    refine Eq.trans ?_ (allocate_get context _ type)
    simp only [Context.get,objects,Context.allocate]
  have stays {type : Pointer} {object : Object} (found : context.get type = some object) :
      type ≠ .allocated context.objects.length := new_ne object found
  have isNew := (get_eq (.allocated context.objects.length)).trans (if_pos rfl)
  have grows : Grows context after := by
    refine ⟨fun type object found => ?_,fun key type found => ?_,?_⟩
    · rw [get_eq,if_neg (stays found),found]
    · rw [sameKeys,found]
    · exact ⟨_,inserted.symm⟩
  have searches (short : lengths.length < 2 ^ 32) :
      after.search elementType lengths = some (.allocated context.objects.length) := by
    have appended : after.existingTypes elementType =
        context.existingTypes elementType ++ [.allocated context.objects.length] := by
      simp [Context.existingTypes,inserted]
    have fits : after.hasDimensions lengths.length (.allocated context.objects.length) = true := by
      rw [hasDimensions_iff,isNew,Nat.mod_eq_of_lt short]
      exact ⟨_,_,rfl⟩
    rw [Context.search,appended,List.find?_append,grows.find_existing invariant,missing,
      Option.none_or,List.find?_cons_of_pos fits]
  have apart {type : Pointer} {lengths' : List Nat} (short : lengths.length < 2 ^ 32)
      (found : context.get type =
        some (.staticTensor elementType (lengths.length % 2 ^ 32) lengths')) : False :=
    search_none invariant missing found (Nat.mod_eq_of_lt short)
  refine ⟨⟨?_,?_,?_,?_,?_,?_⟩,grows,searches,_,_,isNew⟩
  · rw [objects]
    exact ⟨by simpa [Object.parts] using known,invariant.closed⟩
  · intro key type
    rw [sameKeys,invariant.keyed,get_eq]
    constructor
    · rintro ⟨object,found,isKey⟩
      exact ⟨object,by rw [if_neg (stays found),found],isKey⟩
    · rintro ⟨object,found,isKey⟩
      split_ifs at found
      · exact absurd (Option.some.inj found).symm (key_ne_staticTensor isKey)
      · exact ⟨object,found,isKey⟩
  · intro elementType' type
    rw [inserted,List.mem_append,List.mem_singleton,invariant.staticTensors,get_eq]
    constructor
    · rintro (⟨number,lengths',found⟩ | same)
      · exact ⟨number,lengths',by rw [if_neg (stays found),found]⟩
      · obtain ⟨rfl,rfl⟩ := Prod.mk.inj same
        exact ⟨_,_,if_pos rfl⟩
    · rintro ⟨number,lengths',found⟩
      split_ifs at found with same
      · obtain ⟨rfl,_,_⟩ := Object.staticTensor.inj (Option.some.inj found)
        exact .inr (by rw [same])
      · exact .inl ⟨number,lengths',found⟩
  · intro type elementType' number lengths' found
    rw [get_eq] at found
    split_ifs at found
    · obtain ⟨rfl,rfl,rfl⟩ := Object.staticTensor.inj (Option.some.inj found)
      exact ⟨rfl,List.mem_append_right _ (List.mem_singleton_self _)⟩
    · obtain ⟨isNumber,member⟩ := invariant.requested type elementType' number lengths' found
      exact ⟨isNumber,List.mem_append_left _ member⟩
  · intro elementType' lengths' member short
    rcases List.mem_append.mp member with old | new
    · obtain ⟨type,isFirst⟩ := Option.isSome_iff_exists.mp
        (invariant.searched elementType' lengths' old short)
      rw [grows.search invariant isFirst]
      rfl
    · obtain ⟨rfl,rfl⟩ := Call.staticTensor.inj (List.mem_singleton.mp new)
      rw [searches short]
      rfl
  · intro type type' elementType' number lengths' lengths'' found found' short short'
    rw [get_eq] at found found'
    split_ifs at found with same
    · obtain ⟨rfl,rfl,rfl⟩ := Object.staticTensor.inj (Option.some.inj found)
      split_ifs at found' with same'
      · rw [same,same']
      · exact (apart short found').elim
    · split_ifs at found' with same'
      · obtain ⟨rfl,rfl,rfl⟩ := Object.staticTensor.inj (Option.some.inj found')
        exact (apart short' found).elim
      · exact invariant.unique type type' elementType' number lengths' lengths'' found found' short
          short'

theorem Invariant.staticTensor (invariant : Invariant calls context) {elementType : Pointer}
    {lengths : List Nat} (known : elementType.Known context.objects) {after : Context}
    {result : Pointer} (ran : context.staticTensorType elementType lengths = some (after,result)) :
    Invariant (calls ++ [.staticTensor elementType lengths]) after ∧ Grows context after ∧
      (Call.staticTensor elementType lengths).Answered after result := by
  unfold Context.staticTensorType at ran
  cases found : context.search elementType lengths with
  | some type =>
    simp only [found] at ran
    split_ifs at ran
    obtain ⟨rfl,rfl⟩ := Prod.mk.inj (Option.some.inj ran)
    obtain ⟨lengths',isTensor⟩ := search_some invariant found
    refine ⟨⟨invariant.closed,invariant.keyed,invariant.staticTensors,?_,?_,invariant.unique⟩,
      .refl context,fun _ => found,_,_,isTensor⟩
    · intro type elementType number lengths isTensor
      obtain ⟨isNumber,member⟩ := invariant.requested type elementType number lengths isTensor
      exact ⟨isNumber,List.mem_append_left _ member⟩
    · intro elementType' lengths' member short
      rcases List.mem_append.mp member with old | new
      · exact invariant.searched elementType' lengths' old short
      · obtain ⟨rfl,rfl⟩ := Call.staticTensor.inj (List.mem_singleton.mp new)
        exact Option.isSome_of_eq_some found
  | none =>
    simp only [found,Option.some.injEq] at ran
    obtain ⟨rfl,rfl⟩ := Prod.mk.inj ran
    exact invariant.added known found rfl (fun key => by cases key <;> rfl) rfl

/-- One call. -/
theorem Invariant.call (invariant : Invariant calls context) {call : Call}
    (valid : call.Valid context) {after : Context} {result : Pointer}
    (ran : call.run context = some (after,result)) :
    Invariant (calls ++ [call]) after ∧ Grows context after ∧ call.Answered after result := by
  have interned {key : Key} {object : Object} (isKey : object.key = some key)
      (isCall : call.key = some key) (known : ∀ part ∈ object.parts, part.Known context.objects)
      (isRun : call.run context = some (context.intern key object)) :
      Invariant (calls ++ [call]) after ∧ Grows context after ∧
        ∃ key, call.key = some key ∧ after.find key = some result := by
    rw [isRun] at ran
    obtain ⟨kept,grows,found⟩ := invariant.intern isKey known
    rw [Option.some.inj ran] at kept grows found
    refine ⟨kept.other ?_,grows,key,isCall,found⟩
    rintro elementType lengths rfl
    exact absurd isCall (by simp [Call.key])
  cases call with
  | integer _ | float | double | pointer =>
    obtain ⟨rfl,rfl⟩ := Prod.mk.inj (Option.some.inj ran)
    exact ⟨invariant.other (by simp),.refl _,rfl⟩
  | struct name =>
    obtain ⟨type,found,same⟩ := Option.map_eq_some_iff.mp ran
    obtain ⟨rfl,rfl⟩ := Prod.mk.inj same
    exact ⟨invariant.other (by simp),.refl _,_,rfl,found⟩
  | staticTensor elementType lengths => exact invariant.staticTensor valid ran
  | fieldArray structType fieldIndex =>
    obtain ⟨name,fieldTypes,isStruct⟩ := valid
    exact interned rfl rfl (by simpa [Object.parts] using get_known isStruct) rfl
  | defineStruct name fieldTypes => exact interned rfl rfl (by simp [Object.parts]) rfl
  | reference _ | tensor _ _ | sequence _ =>
    exact interned rfl rfl (by simpa [Object.parts,Call.Valid] using valid) rfl
  | assocArray keyType valueType =>
    exact interned rfl rfl (by simpa [Object.parts,Call.Valid] using valid) rfl

/-- Calls whose types the search compares have dimensions that its counter can count. -/
def Call.Counted : Call → Call → Prop
  | .staticTensor elementType lengths,.staticTensor elementType' lengths' =>
    elementType = elementType' → lengths.length = lengths'.length → lengths.length < 2 ^ 32 →
      lengths.length < 2 ^ 31
  | _,_ => True

theorem Invariant.counted (invariant : Invariant calls context) {call : Call}
    {made : Context × Pointer} (ran : call.run context = some made) {earlier : Call}
    (member : earlier ∈ calls) : earlier.Counted call := by
  unfold Call.Counted
  split
  · rename_i elementType lengths elementType' lengths'
    rintro rfl same short
    obtain ⟨type,found⟩ := Option.isSome_iff_exists.mp
      (invariant.searched elementType lengths member short)
    have found' : context.search elementType lengths' = some type := by
      rw [← found,Context.search,Context.search,same]
    simp only [Call.run,Context.staticTensorType,found'] at ran
    split_ifs at ran with fits
    omega
  · exact trivial

/-- All calls. -/
theorem Invariant.runs {before : List Call} (invariant : Invariant before context)
    {calls : List Call} (valid : ValidCalls context calls) {after : Context}
    {results : List Pointer} (ran : runAll context calls = some (after,results)) :
    Invariant (before ++ calls) after ∧ Grows context after ∧
      List.Forall₂ (fun call result => call.Answered after result) calls results ∧
      calls.Pairwise Call.Counted ∧ ∀ earlier ∈ before, ∀ call ∈ calls, earlier.Counted call := by
  induction calls generalizing before context results with
  | nil =>
    obtain ⟨rfl,rfl⟩ := Prod.mk.inj (Option.some.inj ran)
    exact ⟨by simpa using invariant,.refl _,.nil,.nil,by simp⟩
  | cons call calls ih =>
    simp only [runAll,Option.bind_eq_bind,Option.bind_eq_some_iff,Option.pure_def] at ran
    obtain ⟨⟨middle,result⟩,isCall,⟨last,rest⟩,isRest,same⟩ := ran
    obtain ⟨rfl,rfl⟩ := Prod.mk.inj (Option.some.inj same)
    obtain ⟨kept,grows,answered⟩ := invariant.call valid.1 isCall
    obtain ⟨kept',grows',answered',pairwise,counted⟩ := ih kept (valid.2 _ _ isCall) isRest
    rw [List.append_assoc] at kept'
    refine ⟨kept',grows.trans grows',.cons (grows'.answered kept answered) answered',
      .cons (counted call (by simp)) pairwise,?_⟩
    intro earlier member later isLater
    rcases List.mem_cons.mp isLater with rfl | isLater
    · exact invariant.counted isCall member
    · exact counted earlier (List.mem_append_left _ member) later isLater

theorem Invariant.empty : Invariant [] Context.empty where
  closed := trivial
  keyed key type := by cases key <;> cases type <;> simp [Context.empty,Context.find,Context.get,objectAt]
  staticTensors elementType type := by
    cases type <;> simp [Context.empty,Context.get,objectAt]
  requested type elementType number lengths found := by
    cases type <;> simp [Context.empty,Context.get,objectAt] at found
  searched elementType lengths member := by simp at member
  unique type type' elementType number lengths lengths' found := by
    cases type <;> simp [Context.empty,Context.get,objectAt] at found

def Key.shape (shapeOf : Pointer → Option Shape) : Key → Option Shape
  | .reference referencedType => return .reference (← shapeOf referencedType)
  | .struct name => some (.struct name)
  | .fieldArray structType fieldIndex => return .fieldArray (← shapeOf structType) fieldIndex
  | .tensor elementType numberOfDimensions =>
    return .tensor (← shapeOf elementType) numberOfDimensions
  | .assocArray keyType valueType => return .assocArray (← shapeOf keyType) (← shapeOf valueType)
  | .sequence elementType => return .sequence (← shapeOf elementType)

theorem Object.shape_key {object : Object} {key : Key} (isKey : object.key = some key)
    (shapeOf : Pointer → Option Shape) : object.shape shapeOf = key.shape shapeOf := by
  cases object with
  | staticTensor _ _ _ => exact absurd isKey (by simp [Object.key])
  | reference _ | struct _ _ | fieldArray _ _ | tensor _ _ | assocArray _ _ | sequence _ =>
    obtain rfl := Option.some.inj isKey
    rfl

theorem Call.shape_key {call : Call} {key : Key} (isKey : call.key = some key)
    (shapeOf : Pointer → Option Shape) : call.shape shapeOf = key.shape shapeOf := by
  cases call with
  | integer _ | float | double | pointer | staticTensor _ _ =>
    exact absurd isKey (by simp [Call.key])
  | reference _ | defineStruct _ _ | struct _ | fieldArray _ _ | tensor _ _ | assocArray _ _
  | sequence _ =>
    obtain rfl := Option.some.inj isKey
    rfl

theorem describe_get (invariant : Invariant calls context) {type : Pointer} {object : Object}
    (found : context.get type = some object) :
    describe context.objects type = object.shape (describe context.objects) := by
  cases type with
  | allocated index => exact describe_allocated invariant.closed found
  | integer _ | float | double | pointer => exact absurd found (by simp [Context.get])

/-- The requests of a history for which the property holds. -/
def Distinguished (calls : List Call) : Prop :=
  (∀ call ∈ calls, call.Reportable) ∧ calls.Pairwise Call.Compatible

theorem Call.Compatible.symm {call call' : Call} (compatible : call.Compatible call') :
    call'.Compatible call := by
  unfold Call.Compatible at compatible ⊢
  split
  · rename_i elementType lengths elementType' lengths'
    rintro rfl same
    obtain ⟨rfl,short⟩ := compatible rfl same.symm
    exact ⟨rfl,short⟩
  · exact trivial

/-- Static tensor types of one element type and number of dimensions have the same lengths. -/
theorem Distinguished.lengths (distinguished : Distinguished calls) {elementType : Pointer}
    {lengths lengths' : List Nat} (member : .staticTensor elementType lengths ∈ calls)
    (member' : .staticTensor elementType lengths' ∈ calls) (same : lengths.length = lengths'.length) :
    lengths = lengths' := by
  by_contra different
  have : Std.Symm Call.Compatible := ⟨fun _ _ => Call.Compatible.symm⟩
  have apart : Call.staticTensor elementType lengths ≠ .staticTensor elementType lengths' := by
    rintro same
    exact different (Call.staticTensor.inj same).2
  have compatible : (Call.staticTensor elementType lengths).Compatible (.staticTensor elementType lengths') :=
    distinguished.2.forall member member' apart
  exact different (compatible rfl same).1

theorem Distinguished.requested (distinguished : Distinguished calls)
    (invariant : Invariant calls context) {type elementType : Pointer} {number : Nat}
    {lengths : List Nat} (found : context.get type = some (.staticTensor elementType number lengths)) :
    number = lengths.length ∧ lengths.length < 2 ^ 32 ∧
      .staticTensor elementType lengths ∈ calls := by
  obtain ⟨isNumber,member⟩ := invariant.requested _ _ _ _ found
  have short : lengths.length < 2 ^ 32 := distinguished.1 _ member
  exact ⟨isNumber.trans (Nat.mod_eq_of_lt short),short,member⟩

/-- A static tensor call gets a type with its own lengths. -/
theorem Distinguished.answered (distinguished : Distinguished calls)
    (invariant : Invariant calls context) {elementType result : Pointer} {lengths : List Nat}
    (member : .staticTensor elementType lengths ∈ calls)
    (answered : (Call.staticTensor elementType lengths).Answered context result) :
    context.get result = some (.staticTensor elementType lengths.length lengths) := by
  have short : lengths.length < 2 ^ 32 := distinguished.1 _ member
  obtain ⟨lengths',found⟩ := search_some invariant (answered.1 short)
  obtain ⟨same,_,member'⟩ := distinguished.requested invariant found
  rw [found,distinguished.lengths member member' same]

theorem Distinguished.shape (distinguished : Distinguished calls)
    (invariant : Invariant calls context) {call : Call} {result : Pointer} (member : call ∈ calls)
    (answered : call.Answered context result) :
    describe context.objects result = call.shape (describe context.objects) := by
  cases call with
  | integer _ | float | double | pointer =>
    obtain rfl : result = _ := answered
    cases context.objects <;> rfl
  | staticTensor elementType lengths =>
    rw [describe_get invariant (distinguished.answered invariant member answered)]
    rfl
  | reference _ | defineStruct _ _ | struct _ | fieldArray _ _ | tensor _ _ | assocArray _ _
  | sequence _ =>
    obtain ⟨key,isCall,isFound⟩ := answered
    obtain ⟨object,found,isKey⟩ := (invariant.keyed _ _).mp isFound
    rw [describe_get invariant found,Object.shape_key isKey,Call.shape_key isCall]

theorem described_twice (invariant : Invariant calls context) {shape : Shape}
    {type type' : Pointer} (described : describe context.objects type = some shape)
    (described' : describe context.objects type' = some shape) : type = type' ∨
      ∃ object object', context.get type = some object ∧ context.get type' = some object' ∧
        object.shape (describe context.objects) = some shape ∧
        object'.shape (describe context.objects) = some shape := by
  rcases describe_cases invariant.closed described with static | ⟨object,found,made⟩
  · rcases describe_cases invariant.closed described' with static' | ⟨object',_,made'⟩
    · exact .inl (static_injective static static')
    · exact absurd static (static_shape made')
  · rcases describe_cases invariant.closed described' with static' | ⟨object',found',made'⟩
    · exact absurd static' (static_shape made)
    · exact .inr ⟨object,object',found,found',made,made'⟩

theorem Invariant.same_key (invariant : Invariant calls context) {type type' : Pointer}
    {object object' : Object} (found : context.get type = some object)
    (found' : context.get type' = some object') {key : Key} (isKey : object.key = some key)
    (isKey' : object'.key = some key) : type = type' := by
  have isFound := (invariant.keyed key type).mpr ⟨object,found,isKey⟩
  have isFound' := (invariant.keyed key type').mpr ⟨object',found',isKey'⟩
  exact Option.some.inj (isFound.symm.trans isFound')

/-- No two addresses stand for one structure. -/
theorem Distinguished.injective (distinguished : Distinguished calls)
    (invariant : Invariant calls context) (shape : Shape) {type type' : Pointer}
    (described : describe context.objects type = some shape)
    (described' : describe context.objects type' = some shape) : type = type' := by
  induction shape generalizing type type' with
  | integer _ | float | double | pointer =>
    rcases described_twice invariant described described' with same | ⟨_,_,_,_,made,_⟩
    · exact same
    · exact (object_of_shape made).elim
  | struct name =>
    rcases described_twice invariant described described' with same | ⟨_,_,found,found',made,made'⟩
    · exact same
    obtain ⟨_,rfl⟩ := object_of_shape made
    obtain ⟨_,rfl⟩ := object_of_shape made'
    exact invariant.same_key found found' rfl rfl
  | staticTensor inner lengths ih =>
    rcases described_twice invariant described described' with same | ⟨_,_,found,found',made,made'⟩
    · exact same
    obtain ⟨elementType,number,rfl,isInner⟩ := object_of_shape made
    obtain ⟨elementType',number',rfl,isInner'⟩ := object_of_shape made'
    obtain rfl := ih isInner isInner'
    obtain ⟨rfl,short,_⟩ := distinguished.requested invariant found
    obtain ⟨rfl,_,_⟩ := distinguished.requested invariant found'
    exact invariant.unique _ _ _ _ _ _ found found' short short
  | reference inner ih | fieldArray inner _ ih | tensor inner _ ih | sequence inner ih =>
    rcases described_twice invariant described described' with same | ⟨_,_,found,found',made,made'⟩
    · exact same
    obtain ⟨part,rfl,isInner⟩ := object_of_shape made
    obtain ⟨part',rfl,isInner'⟩ := object_of_shape made'
    obtain rfl := ih isInner isInner'
    exact invariant.same_key found found' rfl rfl
  | assocArray inner inner' ih ih' =>
    rcases described_twice invariant described described' with same | ⟨_,_,found,found',made,made'⟩
    · exact same
    obtain ⟨keyType,valueType,rfl,isKey,isValue⟩ := object_of_shape made
    obtain ⟨keyType',valueType',rfl,isKey',isValue'⟩ := object_of_shape made'
    obtain rfl := ih isKey isKey'
    obtain rfl := ih' isValue isValue'
    exact invariant.same_key found found' rfl rfl

theorem tensor_loops (object : Object) (fuel : Nat) : tensorNumberOfDimensions object fuel = none := by
  induction fuel with
  | zero => rfl
  | succ fuel ih => exact ih

theorem Distinguished.reports (distinguished : Distinguished calls)
    (invariant : Invariant calls context) {call : Call} {result : Pointer} (member : call ∈ calls)
    (answered : call.Answered context result) : context.Reports result call := by
  cases call with
  | integer _ | float | double | pointer => exact answered
  | tensor _ _ => exact (distinguished.1 _ member).elim
  | staticTensor elementType lengths =>
    have found := distinguished.answered invariant member answered
    refine ⟨by rw [found]; rfl,⟨0,by rw [found]; rfl⟩,fun index below => ?_⟩
    rw [found]
    exact if_pos below
  | reference _ | defineStruct _ _ | struct _ | fieldArray _ _ | assocArray _ _ | sequence _ =>
    obtain ⟨key,isCall,isFound⟩ := answered
    obtain ⟨object,found,isKey⟩ := (invariant.keyed _ _).mp isFound
    obtain rfl := Option.some.inj isCall
    cases object <;> simp_all [Object.key,Context.Reports,Object.getReferencedType,Object.getName,
      Object.getStructType,Object.getFieldIndex,Object.getKeyType,Object.getElementType]

/-- Calls that can be told apart return. -/
theorem Distinguished.call_total {call : Call} (distinguished : Distinguished (calls ++ [call]))
    (invariant : Invariant calls context) (valid : call.Valid context) :
    ∃ after result, call.run context = some (after,result) := by
  cases call with
  | struct name =>
    obtain ⟨type,found⟩ := Option.isSome_iff_exists.mp valid
    exact ⟨context,type,by rw [Call.run,found]; rfl⟩
  | staticTensor elementType lengths =>
    simp only [Call.run,Context.staticTensorType]
    cases found : context.search elementType lengths with
    | none => exact ⟨_,_,rfl⟩
    | some type =>
      obtain ⟨lengths',isTensor⟩ := search_some invariant found
      obtain ⟨isNumber,member⟩ := invariant.requested _ _ _ _ isTensor
      have short : lengths'.length < 2 ^ 32 := distinguished.1 _ (List.mem_append_left _ member)
      have compatible : (Call.staticTensor elementType lengths').Compatible
          (.staticTensor elementType lengths) :=
        (List.pairwise_append.mp distinguished.2).2.2 _ member _ (List.mem_singleton_self _)
      rw [Nat.mod_eq_of_lt short] at isNumber
      obtain ⟨rfl,fits⟩ := compatible rfl isNumber.symm
      exact ⟨context,type,if_pos fits⟩
  | integer _ | float | double | pointer | reference _ | defineStruct _ _ | fieldArray _ _
  | tensor _ _ | assocArray _ _ | sequence _ => exact ⟨_,_,rfl⟩

theorem Distinguished.left {calls' : List Call} (distinguished : Distinguished (calls ++ calls')) :
    Distinguished calls :=
  ⟨fun call member => distinguished.1 call (List.mem_append_left _ member),
    (List.pairwise_append.mp distinguished.2).1⟩

theorem Distinguished.total (before : List Call) {calls : List Call}
    (distinguished : Distinguished (before ++ calls)) (invariant : Invariant before context)
    (valid : ValidCalls context calls) : ∃ after results, runAll context calls = some (after,results) := by
  induction calls generalizing before context with
  | nil => exact ⟨context,[],rfl⟩
  | cons call calls ih =>
    have split : before ++ call :: calls = before ++ [call] ++ calls := by simp
    rw [split] at distinguished
    obtain ⟨middle,result,isCall⟩ := distinguished.left.call_total invariant valid.1
    obtain ⟨kept,_,_⟩ := invariant.call valid.1 isCall
    obtain ⟨after,results,isRest⟩ := ih _ distinguished kept (valid.2 _ _ isCall)
    exact ⟨after,result :: results,by simp [runAll,isCall,isRest]⟩

end

theorem answered_at {context : Context} {calls : List Call} {results : List Pointer}
    (answered : List.Forall₂ (fun call result => call.Answered context result) calls results)
    {i : Nat} {call : Call} {result : Pointer} (isCall : calls[i]? = some call)
    (isResult : results[i]? = some result) : call.Answered context result := by
  induction answered generalizing i with
  | nil => exact absurd isCall (by simp)
  | cons head tail ih =>
    cases i with
    | zero =>
      obtain rfl := Option.some.inj isCall
      obtain rfl := Option.some.inj isResult
      exact head
    | succ i => exact ih isCall isResult

section
variable {calls : List Call} {context : Context} {call : Call} {result : Pointer}

theorem answered_known (invariant : Invariant calls context)
    (answered : call.Answered context result) : result.Known context.objects := by
  cases call with
  | integer _ | float | double | pointer =>
    obtain rfl : result = _ := answered
    exact trivial
  | staticTensor elementType lengths =>
    obtain ⟨_,_,_,found⟩ := answered
    exact get_known found
  | reference _ | defineStruct _ _ | struct _ | fieldArray _ _ | tensor _ _ | assocArray _ _
  | sequence _ =>
    obtain ⟨key,_,isFound⟩ := answered
    obtain ⟨object,found,_⟩ := (invariant.keyed _ _).mp isFound
    exact get_known found

/-- What a type must be for it to report what was asked for. -/
theorem reportable_of_reports (invariant : Invariant calls context)
    (answered : call.Answered context result) (reports : context.Reports result call) :
    call.Reportable := by
  cases call with
  | tensor elementType numDimensions =>
    obtain ⟨key,isCall,isFound⟩ := answered
    obtain ⟨object,found,isKey⟩ := (invariant.keyed _ _).mp isFound
    obtain rfl := Option.some.inj isCall
    obtain ⟨_,fuel,isNumber⟩ := reports
    cases object with
    | tensor _ _ =>
      rw [found,Option.bind_some,Object.getNumberOfDimensions,tensor_loops] at isNumber
      exact absurd isNumber (by simp)
    | reference _ | struct _ _ | fieldArray _ _ | staticTensor _ _ _ | assocArray _ _ | sequence _ =>
      exact absurd isKey (by simp [Object.key])
  | staticTensor elementType lengths =>
    obtain ⟨_,number,lengths',found⟩ := answered
    obtain ⟨_,⟨fuel,isNumber⟩,_⟩ := reports
    obtain ⟨same,_⟩ := invariant.requested _ _ _ _ found
    rw [found] at isNumber
    have isLength : number = lengths.length := Option.some.inj isNumber
    have short := Nat.mod_lt lengths'.length (Nat.two_pow_pos 32)
    simp only [Call.Reportable]
    omega
  | integer _ | float | double | pointer | reference _ | defineStruct _ _ | struct _
  | fieldArray _ _ | assocArray _ _ | sequence _ => exact trivial

/-- Two static tensor calls that get different types for different lengths. -/
theorem lengths_of_canonical (invariant : Invariant calls context) {elementType result' : Pointer}
    {lengths lengths' : List Nat} (short : lengths.length < 2 ^ 32)
    (same : lengths.length = lengths'.length)
    (answered : (Call.staticTensor elementType lengths).Answered context result)
    (answered' : (Call.staticTensor elementType lengths').Answered context result')
    (canonical : result = result' → (Call.staticTensor elementType lengths).shape
      (describe context.objects) =
        (Call.staticTensor elementType lengths').shape (describe context.objects)) :
    lengths = lengths' := by
  have first := answered.1 short
  have second := answered'.1 (same ▸ short)
  rw [Context.search,← same] at second
  have shapes := canonical (Option.some.inj (first.symm.trans second))
  obtain ⟨_,number,_,found⟩ := answered
  have known : elementType.Known context.objects := by
    cases result with
    | allocated index => exact parts_known invariant.closed found elementType (by simp [Object.parts])
    | integer _ | float | double | pointer => exact absurd found (by simp [Context.get])
  obtain ⟨shape,isShape⟩ := describe_known invariant.closed known
  simp only [Call.shape,isShape,Option.bind_eq_bind,Option.bind_some,Option.pure_def,
    Option.some.injEq,Shape.staticTensor.injEq,true_and] at shapes
  exact shapes

end

/-- The types that are got are canonical exactly for the histories whose requests the code tells
apart and reports. -/
theorem canonical_iff (calls : List Call) (valid : ValidCalls .empty calls) :
    Canonical calls ↔ Distinguished calls := by
  constructor
  · rintro ⟨context,results,ran,reports,canonical⟩
    obtain ⟨invariant,_,answered,counted,_⟩ := Invariant.empty.runs valid ran
    rw [List.nil_append] at invariant
    have isResult (i : Nat) (below : i < calls.length) :
        ∃ result, results[i]? = some result ∧ calls[i].Answered context result := by
      have found := List.getElem?_eq_getElem (answered.length_eq ▸ below)
      exact ⟨_,found,answered_at answered (List.getElem?_eq_getElem below) found⟩
    have reportable : ∀ call ∈ calls, call.Reportable := by
      intro call member
      obtain ⟨i,below,rfl⟩ := List.getElem_of_mem member
      obtain ⟨result,found,isAnswer⟩ := isResult i below
      exact reportable_of_reports invariant isAnswer
        (reports i _ result (List.getElem?_eq_getElem below) found)
    refine ⟨reportable,?_⟩
    rw [List.pairwise_iff_getElem] at counted ⊢
    intro i j below below' before
    obtain ⟨result,found,isAnswer⟩ := isResult i below
    obtain ⟨result',found',isAnswer'⟩ := isResult j below'
    have one := canonical i j _ _ result result' (List.getElem?_eq_getElem below) found
      (List.getElem?_eq_getElem below') found'
    have count := counted i j below below' before
    have short := reportable _ (List.getElem_mem below)
    revert isAnswer isAnswer' one count short
    generalize calls[i] = call
    generalize calls[j] = call'
    intro isAnswer isAnswer' one count short
    unfold Call.Compatible
    split
    · rintro rfl same
      exact ⟨lengths_of_canonical invariant short same isAnswer isAnswer' one.mp,count rfl same short⟩
    · exact trivial
  · intro distinguished
    obtain ⟨context,results,ran⟩ := Distinguished.total [] distinguished .empty valid
    obtain ⟨invariant,_,answered,_,_⟩ := Invariant.empty.runs valid ran
    rw [List.nil_append] at invariant
    have shape (i : Nat) (call : Call) (result : Pointer) (isCall : calls[i]? = some call)
        (isResult : results[i]? = some result) :
        describe context.objects result = call.shape (describe context.objects) :=
      distinguished.shape invariant (List.mem_of_getElem? isCall) (answered_at answered isCall isResult)
    refine ⟨context,results,ran,fun i call result isCall isResult => ?_,?_⟩
    · exact distinguished.reports invariant (List.mem_of_getElem? isCall)
        (answered_at answered isCall isResult)
    · intro i j call call' result result' isCall isResult isCall' isResult'
      rw [← shape i call result isCall isResult,← shape j call' result' isCall' isResult']
      refine ⟨fun same => by rw [same],fun same => ?_⟩
      obtain ⟨isShape,described⟩ := describe_known invariant.closed
        (answered_known invariant (answered_at answered isCall isResult))
      exact distinguished.injective invariant isShape described (same ▸ described)

/-- A struct with its field array, and collections of a tensor that is asked for again. -/
def nestedTypes : List Call :=
  [.defineStruct "node" [.integer .u64],.fieldArray (.allocated 0) 0,.staticTensor (.integer .u64) [2],
    .assocArray (.integer .u64) (.allocated 2),.staticTensor (.integer .u64) [2],
    .staticTensor (.integer .u64) [2,3],.sequence (.allocated 2),.struct "node"]

theorem nestedTypes_valid : ValidCalls .empty nestedTypes := by
  refine ⟨fun type member => List.mem_singleton.mp member ▸ trivial,fun _ _ ran => ?_⟩
  obtain ⟨rfl,rfl⟩ := Prod.mk.inj (Option.some.inj ran)
  refine ⟨⟨_,_,rfl⟩,fun _ _ ran => ?_⟩
  obtain ⟨rfl,rfl⟩ := Prod.mk.inj (Option.some.inj ran)
  refine ⟨trivial,fun _ _ ran => ?_⟩
  obtain ⟨rfl,rfl⟩ := Prod.mk.inj (Option.some.inj ran)
  refine ⟨⟨trivial,show 2 < 3 by decide⟩,fun _ _ ran => ?_⟩
  obtain ⟨rfl,rfl⟩ := Prod.mk.inj (Option.some.inj ran)
  refine ⟨trivial,fun _ _ ran => ?_⟩
  obtain ⟨rfl,rfl⟩ := Prod.mk.inj (Option.some.inj ran)
  refine ⟨trivial,fun _ _ ran => ?_⟩
  obtain ⟨rfl,rfl⟩ := Prod.mk.inj (Option.some.inj ran)
  refine ⟨show 2 < 5 by decide,fun _ _ ran => ?_⟩
  obtain ⟨rfl,rfl⟩ := Prod.mk.inj (Option.some.inj ran)
  exact ⟨rfl,fun _ _ _ => trivial⟩

theorem nestedTypes_canonical : Canonical nestedTypes := by
  refine (canonical_iff nestedTypes nestedTypes_valid).mpr ⟨?_,?_⟩
  · simp [nestedTypes,Call.Reportable]
  · simp [nestedTypes,Call.Compatible]

def twoLengths : List Call :=
  [.staticTensor (.integer .u64) [2],.staticTensor (.integer .u64) [3],.sequence (.integer .u64)]

theorem twoLengths_valid : ValidCalls .empty twoLengths := by
  refine ⟨trivial,fun _ _ _ => ⟨trivial,fun _ _ _ => ⟨trivial,fun _ _ _ => trivial⟩⟩⟩

/-- The second request gets the type of the first one. -/
theorem twoLengths_shared : ValidCalls .empty twoLengths ∧ ¬ Canonical twoLengths := by
  refine ⟨twoLengths_valid,?_⟩
  rintro ⟨context,results,ran,reports,_⟩
  obtain ⟨rfl,rfl⟩ := Prod.mk.inj (Option.some.inj ran)
  have isLength := (reports 1 _ _ rfl rfl).2.2 0 (by decide)
  exact absurd isLength (by decide)

end TypeGetters
end Memoir
