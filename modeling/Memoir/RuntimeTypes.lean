import Mathlib.Data.List.Basic

/-! The types of the runtime library: their constructors, of which some return an object that is there
already, and their equality. -/
namespace Memoir
namespace RuntimeTypes

inductive Pointer
  | object (index : Nat)
  | floatType | doubleType | pointerType
  deriving DecidableEq

/-- A type object with where it is. The name of a struct is the address of a string. -/
inductive RuntimeType
  | structTy (pointer name : Nat)
  | tensorTy (pointer : Nat) (element : RuntimeType) (lengthOfDimensions : List Nat)
  | assocArrayTy (pointer : Nat) (key value : RuntimeType)
  | sequenceTy (pointer : Nat) (element : RuntimeType)
  | integerTy (pointer bitwidth : Nat) (isSigned : Bool)
  | floatTy | doubleTy | pointerTy
  | referenceTy (pointer : Nat) (referenced : RuntimeType)
  deriving DecidableEq

namespace RuntimeType

def pointer : RuntimeType → Pointer
  | structTy pointer _ | tensorTy pointer _ _ | assocArrayTy pointer _ _ | sequenceTy pointer _ |
    integerTy pointer _ _ | referenceTy pointer _ => .object pointer
  | floatTy => .floatType
  | doubleTy => .doubleType
  | pointerTy => .pointerType

def isObjectType : RuntimeType → Bool
  | structTy _ _ | tensorTy _ _ _ | assocArrayTy _ _ _ | sequenceTy _ _ => true
  | _ => false

/-- Tensors and references look into what they are of, the others compare addresses. -/
def equals : RuntimeType → RuntimeType → Bool
  | structTy pointer _,other => other.pointer = .object pointer
  | tensorTy _ element lengths,tensorTy _ element' lengths' => lengths = lengths' ∧ element.equals element'
  | assocArrayTy _ key value,assocArrayTy _ key' value' =>
    key.pointer = key'.pointer ∧ value.pointer = value'.pointer
  | sequenceTy _ element,sequenceTy _ element' => element.pointer = element'.pointer
  | integerTy _ bitwidth isSigned,integerTy _ bitwidth' isSigned' => bitwidth = bitwidth' ∧ isSigned = isSigned'
  | floatTy,floatTy | doubleTy,doubleTy | pointerTy,pointerTy => true
  | referenceTy _ referenced,referenceTy _ referenced' => referenced.equals referenced'
  | _,_ => false

end RuntimeType

def intern (types : List RuntimeType) (found : RuntimeType → Bool) (make : Nat → RuntimeType) :
    List RuntimeType × RuntimeType :=
  match types.find? found with
  | some type => (types,type)
  | none => (types ++ [make types.length],make types.length)

def create (types : List RuntimeType) (make : Nat → RuntimeType) : List RuntimeType × RuntimeType :=
  (types ++ [make types.length],make types.length)

def getStructType (types : List RuntimeType) (name : Nat) : List RuntimeType × RuntimeType :=
  intern types (fun | .structTy _ name' => name' = name | _ => false) (.structTy · name)

def getTensorType (types : List RuntimeType) (element : RuntimeType) (lengthOfDimensions : List Nat) :
    List RuntimeType × RuntimeType :=
  intern types (fun
    | .tensorTy _ element' lengths => element'.pointer = element.pointer ∧ lengths = lengthOfDimensions
    | _ => false) (.tensorTy · element lengthOfDimensions)

/-- Not unique. -/
def getAssocArrayType (types : List RuntimeType) (key value : RuntimeType) : List RuntimeType × RuntimeType :=
  create types (.assocArrayTy · key value)

def getSequenceType (types : List RuntimeType) (element : RuntimeType) : List RuntimeType × RuntimeType :=
  intern types (fun | .sequenceTy _ element' => element'.pointer = element.pointer | _ => false)
    (.sequenceTy · element)

def getIntegerType (types : List RuntimeType) (bitwidth : Nat) (isSigned : Bool) :
    List RuntimeType × RuntimeType :=
  intern types (fun
    | .integerTy _ bitwidth' isSigned' => bitwidth' = bitwidth ∧ isSigned' = isSigned
    | _ => false) (.integerTy · bitwidth isSigned)

def getReferenceType (types : List RuntimeType) (referenced : RuntimeType) :
    Option (List RuntimeType × RuntimeType) :=
  if referenced.isObjectType then some (create types (.referenceTy · referenced)) else none

/-- A definition gets the type of its name; the fields that it sets take no part in equality. -/
inductive Call
  | structType (name : Nat)
  | defineStructType (name : Nat)
  | staticTensorType (element : RuntimeType) (lengthOfDimensions : List Nat)
  | assocArrayType (key value : RuntimeType)
  | sequenceType (element : RuntimeType)
  | integerType (bitwidth : Nat) (isSigned : Bool)
  | f32Type | f64Type | ptrType
  | refType (referenced : RuntimeType)

def Call.arguments : Call → List RuntimeType
  | staticTensorType element _ | sequenceType element => [element]
  | assocArrayType key value => [key,value]
  | refType referenced => [referenced]
  | structType _ | defineStructType _ | integerType _ _ | f32Type | f64Type | ptrType => []

def Known (types : List RuntimeType) (type : RuntimeType) : Prop :=
  type ∈ types ∨ type = .floatTy ∨ type = .doubleTy ∨ type = .pointerTy

instance (types : List RuntimeType) (type : RuntimeType) : Decidable (Known types type) :=
  inferInstanceAs (Decidable (_ ∨ _))

def Call.make (types : List RuntimeType) : Call → Option (List RuntimeType × RuntimeType)
  | structType name | defineStructType name => some (getStructType types name)
  | staticTensorType element lengthOfDimensions => some (getTensorType types element lengthOfDimensions)
  | assocArrayType key value => some (getAssocArrayType types key value)
  | sequenceType element => some (getSequenceType types element)
  | integerType bitwidth isSigned => some (getIntegerType types bitwidth isSigned)
  | f32Type => some (types,.floatTy)
  | f64Type => some (types,.doubleTy)
  | ptrType => some (types,.pointerTy)
  | refType referenced => getReferenceType types referenced

def Call.run (types : List RuntimeType) (call : Call) : Option (List RuntimeType) :=
  if ∀ argument ∈ call.arguments, Known types argument then (call.make types).map Prod.fst else none

def run (calls : List Call) : Option (List RuntimeType) := calls.foldlM Call.run []

inductive Structure
  | struct (name : String)
  | tensor (element : Structure) (lengthOfDimensions : List Nat)
  | assocArray (key value : Structure)
  | sequence (element : Structure)
  | integer (bitwidth : Nat) (isSigned : Bool)
  | float | double | pointer
  | reference (referenced : Structure)
  deriving DecidableEq

def RuntimeType.structure_ (text : Nat → String) : RuntimeType → Structure
  | structTy _ name => .struct (text name)
  | tensorTy _ element lengths => .tensor (element.structure_ text) lengths
  | assocArrayTy _ key value => .assocArray (key.structure_ text) (value.structure_ text)
  | sequenceTy _ element => .sequence (element.structure_ text)
  | integerTy _ bitwidth isSigned => .integer bitwidth isSigned
  | floatTy => .float
  | doubleTy => .double
  | pointerTy => .pointer
  | referenceTy _ referenced => .reference (referenced.structure_ text)

/-- The type of an object is asserted; a null object passes as any object type. -/
def assertType (type : RuntimeType) : Option RuntimeType → Option Bool
  | none => some type.isObjectType
  | some objectType => if type.equals objectType then some true else none

def Structural (text : Nat → String) (types : List RuntimeType) : Prop :=
  ∀ type other, Known types type → Known types other →
    (type.equals other = true ↔ type.structure_ text = other.structure_ text) ∧
    (assertType type (some other) = some true ↔ type.structure_ text = other.structure_ text)

/-- Calls get the same name or the same component types where they get equal ones. -/
structure Shared (text : Nat → String) (calls : List Call) : Prop where
  struct : ∀ name name', .structType name ∈ calls ∨ .defineStructType name ∈ calls →
    .structType name' ∈ calls ∨ .defineStructType name' ∈ calls → text name = text name' → name = name'
  sequence : ∀ element element', .sequenceType element ∈ calls → .sequenceType element' ∈ calls →
    element.structure_ text = element'.structure_ text → element = element'
  assocArray : ∀ key value key' value', .assocArrayType key value ∈ calls →
    .assocArrayType key' value' ∈ calls → key.structure_ text = key'.structure_ text →
    value.structure_ text = value'.structure_ text → key = key' ∧ value = value'

inductive Call.Makes : Call → RuntimeType → Prop
  | structType {pointer name : Nat} : Makes (.structType name) (.structTy pointer name)
  | defineStructType {pointer name : Nat} : Makes (.defineStructType name) (.structTy pointer name)
  | staticTensorType {pointer : Nat} {element : RuntimeType} {lengthOfDimensions : List Nat} :
    Makes (.staticTensorType element lengthOfDimensions) (.tensorTy pointer element lengthOfDimensions)
  | assocArrayType {pointer : Nat} {key value : RuntimeType} :
    Makes (.assocArrayType key value) (.assocArrayTy pointer key value)
  | sequenceType {pointer : Nat} {element : RuntimeType} : Makes (.sequenceType element) (.sequenceTy pointer element)
  | integerType {pointer bitwidth : Nat} {isSigned : Bool} :
    Makes (.integerType bitwidth isSigned) (.integerTy pointer bitwidth isSigned)
  | f32Type : Makes .f32Type .floatTy
  | f64Type : Makes .f64Type .doubleTy
  | ptrType : Makes .ptrType .pointerTy
  | refType {pointer : Nat} {referenced : RuntimeType} : Makes (.refType referenced) (.referenceTy pointer referenced)

def RuntimeType.components : RuntimeType → List RuntimeType
  | tensorTy _ element _ | sequenceTy _ element => [element]
  | assocArrayTy _ key value => [key,value]
  | referenceTy _ referenced => [referenced]
  | structTy _ _ | integerTy _ _ _ | floatTy | doubleTy | pointerTy => []

theorem Call.Makes.components {call : Call} {type : RuntimeType} (makes : call.Makes type) :
    type.components = call.arguments := by
  cases makes <;> rfl

def RuntimeType.isUnique : RuntimeType → Bool
  | structTy _ _ | sequenceTy _ _ => true
  | _ => false

structure Interned (types : List RuntimeType) (calls : List Call) : Prop where
  position : ∀ (index : Nat) (type : RuntimeType), types[index]? = some type → type.pointer = .object index
  components : ∀ type ∈ types, ∀ component ∈ type.components, Known types component
  made : ∀ type ∈ types, ∃ call ∈ calls, call.Makes type
  makes : ∀ call ∈ calls, ∃ type, Known types type ∧ call.Makes type
  unique : ∀ (call : Call), ∀ type ∈ types, ∀ other ∈ types, type.isUnique = true →
    call.Makes type → call.Makes other → type = other

section
variable {types types' : List RuntimeType} {calls : List Call} {type other : RuntimeType} {call : Call}

theorem Known.append (known : Known types type) (more : List RuntimeType) : Known (types ++ more) type :=
  known.imp_left (List.mem_append_left _)

/-- One address, one object. -/
theorem Interned.same (interned : Interned types calls) (known : Known types type) (known' : Known types other)
    (same : type.pointer = other.pointer) : type = other := by
  have pointer {type : RuntimeType} (member : type ∈ types) :
      ∃ index, types[index]? = some type ∧ type.pointer = .object index := by
    obtain ⟨index,isType⟩ := List.mem_iff_getElem?.mp member
    exact ⟨index,isType,interned.position index type isType⟩
  have apart {type other : RuntimeType} (member : type ∈ types)
      (isStatic : other = .floatTy ∨ other = .doubleTy ∨ other = .pointerTy) : type.pointer ≠ other.pointer := by
    obtain ⟨index,_,isPointer⟩ := pointer member
    rw [isPointer]
    rcases isStatic with rfl | rfl | rfl <;> simp [RuntimeType.pointer]
  rcases known with member | isStatic <;> rcases known' with member' | isStatic'
  · obtain ⟨index,isType,isPointer⟩ := pointer member
    obtain ⟨index',isOther,isPointer'⟩ := pointer member'
    obtain rfl := Pointer.object.inj (isPointer.symm.trans (same.trans isPointer'))
    exact Option.some.inj (isType.symm.trans isOther)
  · exact absurd same (apart member isStatic')
  · exact absurd same.symm (apart member' isStatic)
  · rcases isStatic with rfl | rfl | rfl <;> rcases isStatic' with rfl | rfl | rfl <;>
      simp [RuntimeType.pointer] at same ⊢

/-- A call finds a type, or makes one that it could not find. -/
structure Finds (types : List RuntimeType) (call : Call) (types' : List RuntimeType) (type : RuntimeType) :
    Prop where
  known : Known types' type
  makes : call.Makes type
  grows : types' = types ∨ types' = types ++ [type] ∧ type.pointer = .object types.length ∧
    (type.isUnique = true → ∀ old ∈ types, ¬ call.Makes old)

theorem intern_finds {found : RuntimeType → Bool} (make : Nat → RuntimeType)
    (makes : ∀ pointer, call.Makes (make pointer)) (isPointer : ∀ pointer, (make pointer).pointer = .object pointer)
    (finds : ∀ old ∈ types, found old = true → call.Makes old)
    (misses : ∀ old ∈ types, found old = false → ¬ call.Makes old) :
    Finds types call (intern types found make).1 (intern types found make).2 := by
  unfold intern
  cases isFound : types.find? found with
  | some type =>
    have member := List.mem_of_find?_eq_some isFound
    exact ⟨.inl member,finds type member (List.find?_some isFound),.inl rfl⟩
  | none =>
    refine ⟨.inl (by simp),makes _,.inr ⟨rfl,isPointer _,fun _ old member => misses old member ?_⟩⟩
    exact Bool.eq_false_iff.mpr (List.find?_eq_none.mp isFound old member)

theorem create_finds (make : Nat → RuntimeType) (makes : ∀ pointer, call.Makes (make pointer))
    (isPointer : ∀ pointer, (make pointer).pointer = .object pointer)
    (notUnique : ∀ pointer, (make pointer).isUnique = false) :
    Finds types call (create types make).1 (create types make).2 :=
  ⟨.inl (by simp [create]),makes _,.inr ⟨rfl,isPointer _,fun unique =>
    absurd ((notUnique types.length).symm.trans unique) (by simp)⟩⟩

theorem Interned.finds (interned : Interned types calls) (isRun : call.run types = some types') :
    (∀ argument ∈ call.arguments, Known types argument) ∧ ∃ type, Finds types call types' type := by
  unfold Call.run at isRun
  split_ifs at isRun with known
  refine ⟨known,?_⟩
  obtain ⟨⟨grown,type⟩,made,rfl⟩ := Option.map_eq_some_iff.mp isRun
  refine ⟨type,?_⟩
  have element {old argument : RuntimeType} (isOld : old ∈ types) (isComponent : argument ∈ old.components)
      {expected : RuntimeType} (isArgument : expected ∈ call.arguments) :
      argument.pointer = expected.pointer ↔ argument = expected :=
    ⟨interned.same (interned.components old isOld argument isComponent) (known expected isArgument),
      congrArg RuntimeType.pointer⟩
  cases call with
  | structType name =>
    obtain ⟨rfl,rfl⟩ := Prod.mk.inj (Option.some.inj made)
    refine intern_finds (.structTy · name) (fun _ => .structType) (fun _ => rfl) (fun old isOld isFound => ?_)
      fun old isOld isMissed makes => ?_
    · cases old <;> simp at isFound
      subst isFound
      exact .structType
    · cases makes
      simp at isMissed
  | defineStructType name =>
    obtain ⟨rfl,rfl⟩ := Prod.mk.inj (Option.some.inj made)
    refine intern_finds (.structTy · name) (fun _ => .defineStructType) (fun _ => rfl) (fun old isOld isFound => ?_)
      fun old isOld isMissed makes => ?_
    · cases old <;> simp at isFound
      subst isFound
      exact .defineStructType
    · cases makes
      simp at isMissed
  | staticTensorType elem lengths =>
    obtain ⟨rfl,rfl⟩ := Prod.mk.inj (Option.some.inj made)
    refine intern_finds (.tensorTy · elem lengths) (fun _ => .staticTensorType) (fun _ => rfl)
      (fun old isOld isFound => ?_) fun old isOld isMissed makes => ?_
    · cases old <;> simp at isFound
      obtain ⟨same,rfl⟩ := isFound
      rw [element isOld (by simp [RuntimeType.components]) (by simp [Call.arguments])] at same
      subst same
      exact .staticTensorType
    · cases makes
      simp at isMissed
  | assocArrayType key value =>
    obtain ⟨rfl,rfl⟩ := Prod.mk.inj (Option.some.inj made)
    exact create_finds (.assocArrayTy · key value) (fun _ => .assocArrayType) (fun _ => rfl) fun _ => rfl
  | sequenceType elem =>
    obtain ⟨rfl,rfl⟩ := Prod.mk.inj (Option.some.inj made)
    refine intern_finds (.sequenceTy · elem) (fun _ => .sequenceType) (fun _ => rfl) (fun old isOld isFound => ?_)
      fun old isOld isMissed makes => ?_
    · cases old <;> simp at isFound
      rw [element isOld (by simp [RuntimeType.components]) (by simp [Call.arguments])] at isFound
      subst isFound
      exact .sequenceType
    · cases makes
      simp at isMissed
  | integerType bitwidth isSigned =>
    obtain ⟨rfl,rfl⟩ := Prod.mk.inj (Option.some.inj made)
    refine intern_finds (.integerTy · bitwidth isSigned) (fun _ => .integerType) (fun _ => rfl)
      (fun old isOld isFound => ?_) fun old isOld isMissed makes => ?_
    · cases old <;> simp at isFound
      obtain ⟨rfl,rfl⟩ := isFound
      exact .integerType
    · cases makes
      simp at isMissed
  | f32Type | f64Type | ptrType =>
    obtain ⟨rfl,rfl⟩ := Prod.mk.inj (Option.some.inj made)
    exact ⟨.inr (by simp),by constructor,.inl rfl⟩
  | refType referenced =>
    simp only [Call.make,getReferenceType] at made
    split_ifs at made
    obtain ⟨rfl,rfl⟩ := Prod.mk.inj (Option.some.inj made)
    exact create_finds (.referenceTy · referenced) (fun _ => .refType) (fun _ => rfl) fun _ => rfl

/-- Calls with one result make the same kind of type. -/
theorem Call.Makes.template {call' : Call} {type' : RuntimeType}
    (makes : call.Makes type) (makes' : call'.Makes type) (makes'' : call'.Makes type') : call.Makes type' := by
  cases makes <;> cases makes' <;> cases makes'' <;> constructor

theorem Call.Makes.isUnique (makes : call.Makes type) (makes' : call.Makes other) :
    type.isUnique = other.isUnique := by
  cases makes <;> cases makes' <;> rfl

theorem Interned.step (interned : Interned types calls) (isRun : call.run types = some types') :
    Interned types' (calls ++ [call]) := by
  obtain ⟨known,type,⟨isKnown,makes,grows⟩⟩ := interned.finds isRun
  have made (old : RuntimeType) (isOld : old ∈ types) : ∃ call' ∈ calls ++ [call], call'.Makes old := by
    obtain ⟨call',isCall,makes'⟩ := interned.made old isOld
    exact ⟨call',List.mem_append_left _ isCall,makes'⟩
  have makesAll (call' : Call) (isCall : call' ∈ calls ++ [call]) : ∃ type, Known types' type ∧ call'.Makes type := by
    rcases List.mem_append.mp isCall with old | new
    · obtain ⟨old,isOld,makes'⟩ := interned.makes call' old
      refine ⟨old,?_,makes'⟩
      rcases grows with rfl | ⟨rfl,_⟩
      · exact isOld
      · exact isOld.append _
    · exact ⟨type,isKnown,List.mem_singleton.mp new ▸ makes⟩
  rcases grows with rfl | ⟨rfl,isPointer,isNew⟩
  · exact ⟨interned.position,interned.components,made,makesAll,interned.unique⟩
  · refine ⟨fun index other isOther => ?_,fun other isOther component isComponent => ?_,
      fun other isOther => ?_,makesAll,fun call' first isFirst second isSecond unique makes' makes'' => ?_⟩
    · rcases Nat.lt_or_ge index types.length with below | above
      · rw [List.getElem?_append_left below] at isOther
        exact interned.position index other isOther
      · rw [List.getElem?_append_right above,List.getElem?_singleton] at isOther
        split_ifs at isOther with last
        obtain rfl := Option.some.inj isOther
        rw [isPointer,show index = types.length by omega]
    · rcases List.mem_append.mp isOther with old | new
      · exact (interned.components other old component isComponent).append _
      · rw [List.mem_singleton.mp new,makes.components] at isComponent
        exact (known component isComponent).append _
    · rcases List.mem_append.mp isOther with old | new
      · exact made other old
      · exact ⟨call,by simp,List.mem_singleton.mp new ▸ makes⟩
    · rcases List.mem_append.mp isFirst with old | new <;> rcases List.mem_append.mp isSecond with old' | new'
      · exact interned.unique call' first old second old' unique makes' makes''
      · rw [List.mem_singleton.mp new'] at makes''
        exact absurd (makes.template makes'' makes')
          (isNew ((makes''.isUnique makes').trans unique) first old)
      · rw [List.mem_singleton.mp new] at makes' unique
        exact absurd (makes.template makes' makes'') (isNew unique second old')
      · rw [List.mem_singleton.mp new,List.mem_singleton.mp new']

theorem Interned.run (interned : Interned types calls) (more : List Call)
    (isRun : more.foldlM Call.run types = some types') : Interned types' (calls ++ more) := by
  induction more generalizing types calls with
  | nil =>
    obtain rfl := Option.some.inj isRun
    simpa using interned
  | cons call more ih =>
    rw [List.foldlM_cons,Option.bind_eq_bind,Option.bind_eq_some_iff] at isRun
    obtain ⟨middle,isMiddle,isRun⟩ := isRun
    simpa using ih (interned.step isMiddle) isRun

theorem run_interned (isRun : run calls = some types) : Interned types calls := by
  have empty : Interned [] [] := ⟨by simp,by simp,by simp,by simp,by simp⟩
  simpa using empty.run calls isRun

variable {text : Nat → String}

theorem Known.component (known : Known types type) (interned : Interned types calls)
    {component : RuntimeType} (isComponent : component ∈ type.components) : Known types component := by
  rcases known with member | rfl | rfl | rfl
  · exact interned.components type member component isComponent
  all_goals exact absurd isComponent (by simp [RuntimeType.components])

/-- Types that are equal have one structure. -/
theorem Interned.structure_of_equals (interned : Interned types calls) (known : Known types type)
    (known' : Known types other) (equal : type.equals other = true) :
    type.structure_ text = other.structure_ text := by
  have part {type component : RuntimeType} (known : Known types type) (isComponent : component ∈ type.components) :=
    known.component interned isComponent
  induction type generalizing other with
  | structTy pointer name =>
    have isPointer : other.pointer = (RuntimeType.structTy pointer name).pointer := of_decide_eq_true equal
    rw [interned.same known' known isPointer]
  | tensorTy pointer element lengths ih =>
    cases other <;> simp [RuntimeType.equals] at equal
    obtain ⟨rfl,equal⟩ := equal
    simp only [RuntimeType.structure_]
    rw [ih (part known (by simp [RuntimeType.components])) (part known' (by simp [RuntimeType.components])) equal]
  | assocArrayTy pointer key value _ _ =>
    cases other <;> simp [RuntimeType.equals] at equal
    simp only [RuntimeType.structure_]
    rw [interned.same (part known (by simp [RuntimeType.components]))
        (part known' (by simp [RuntimeType.components])) equal.1,
      interned.same (part known (by simp [RuntimeType.components]))
        (part known' (by simp [RuntimeType.components])) equal.2]
  | sequenceTy pointer element _ =>
    cases other <;> simp [RuntimeType.equals] at equal
    simp only [RuntimeType.structure_]
    rw [interned.same (part known (by simp [RuntimeType.components]))
        (part known' (by simp [RuntimeType.components])) equal]
  | integerTy pointer bitwidth isSigned =>
    cases other <;> simp [RuntimeType.equals] at equal
    obtain ⟨rfl,rfl⟩ := equal
    rfl
  | floatTy | doubleTy | pointerTy =>
    cases other <;> simp [RuntimeType.equals] at equal
    rfl
  | referenceTy pointer referenced ih =>
    cases other <;> simp [RuntimeType.equals] at equal
    simp only [RuntimeType.structure_]
    rw [ih (part known (by simp [RuntimeType.components])) (part known' (by simp [RuntimeType.components])) equal]

theorem Interned.called (interned : Interned types calls) (known : Known types type)
    (notStatic : type.pointer ≠ .floatType ∧ type.pointer ≠ .doubleType ∧ type.pointer ≠ .pointerType) :
    type ∈ types ∧ ∃ call ∈ calls, call.Makes type := by
  rcases known with member | rfl | rfl | rfl
  · exact ⟨member,interned.made type member⟩
  · exact absurd rfl notStatic.1
  · exact absurd rfl notStatic.2.1
  · exact absurd rfl notStatic.2.2

/-- Where calls share what they get, types of one structure are equal. -/
theorem Interned.equals_of_structure (interned : Interned types calls) (shared : Shared text calls)
    (known : Known types type) (known' : Known types other)
    (same : type.structure_ text = other.structure_ text) : type.equals other = true := by
  have part {type component : RuntimeType} (known : Known types type) (isComponent : component ∈ type.components) :=
    known.component interned isComponent
  induction type generalizing other with
  | structTy pointer name =>
    cases other <;> simp [RuntimeType.structure_] at same
    obtain ⟨member,call,isCall,makes⟩ := interned.called known (by simp [RuntimeType.pointer])
    obtain ⟨member',call',isCall',makes'⟩ := interned.called known' (by simp [RuntimeType.pointer])
    rename_i pointer' name'
    have isName : name = name' := shared.struct name name' (by cases makes <;> simp [isCall])
      (by cases makes' <;> simp [isCall']) same
    subst isName
    have isSame := interned.unique (.structType name) _ member _ member' rfl .structType .structType
    simpa [RuntimeType.equals,RuntimeType.pointer] using isSame.symm
  | tensorTy pointer element lengths ih =>
    cases other <;> simp [RuntimeType.structure_] at same
    simpa [RuntimeType.equals,same.2] using ih (part known (by simp [RuntimeType.components]))
      (part known' (by simp [RuntimeType.components])) same.1
  | assocArrayTy pointer key value _ _ =>
    cases other <;> simp [RuntimeType.structure_] at same
    obtain ⟨_,call,isCall,makes⟩ := interned.called known (by simp [RuntimeType.pointer])
    obtain ⟨_,call',isCall',makes'⟩ := interned.called known' (by simp [RuntimeType.pointer])
    cases makes
    cases makes'
    obtain ⟨rfl,rfl⟩ := shared.assocArray _ _ _ _ isCall isCall' same.1 same.2
    simp [RuntimeType.equals]
  | sequenceTy pointer element _ =>
    cases other <;> simp [RuntimeType.structure_] at same
    obtain ⟨_,call,isCall,makes⟩ := interned.called known (by simp [RuntimeType.pointer])
    obtain ⟨_,call',isCall',makes'⟩ := interned.called known' (by simp [RuntimeType.pointer])
    cases makes
    cases makes'
    obtain rfl := shared.sequence _ _ isCall isCall' same
    simp [RuntimeType.equals]
  | integerTy pointer bitwidth isSigned =>
    cases other <;> simp [RuntimeType.structure_] at same
    simp [RuntimeType.equals,same]
  | floatTy | doubleTy | pointerTy =>
    cases other <;> simp [RuntimeType.structure_] at same
    rfl
  | referenceTy pointer referenced ih =>
    cases other <;> simp [RuntimeType.structure_] at same
    simpa [RuntimeType.equals] using ih (part known (by simp [RuntimeType.components]))
      (part known' (by simp [RuntimeType.components])) same

/-- Equality is structural exactly when equal names come from one address, and the components of
sequences and associative arrays that are equal are one object. -/
theorem structural_iff (calls : List Call) (types : List RuntimeType) (isRun : run calls = some types) :
    Structural text types ↔ Shared text calls := by
  have interned := run_interned isRun
  constructor
  · intro structural
    have made {call : Call} (isCall : call ∈ calls) := interned.makes call isCall
    have unequal {type other : RuntimeType} (known : Known types type) (known' : Known types other)
        (same : type.structure_ text = other.structure_ text) : type.equals other = true :=
      (structural type other known known').1.mpr same
    refine ⟨fun name name' isCall isCall' same => ?_,fun element element' isCall isCall' same => ?_,
      fun key value key' value' isCall isCall' same same' => ?_⟩
    · have named {name : Nat} (isCall : .structType name ∈ calls ∨ .defineStructType name ∈ calls) :
          ∃ pointer, Known types (.structTy pointer name) := by
        rcases isCall with isCall | isCall
        · obtain ⟨_,known,makes⟩ := made isCall
          cases makes
          exact ⟨_,known⟩
        · obtain ⟨_,known,makes⟩ := made isCall
          cases makes
          exact ⟨_,known⟩
      obtain ⟨pointer,known⟩ := named isCall
      obtain ⟨pointer',known'⟩ := named isCall'
      have equal := unequal known known' (congrArg Structure.struct same)
      have isSame := interned.same known' known (of_decide_eq_true equal)
      exact (RuntimeType.structTy.inj isSame).2.symm
    · obtain ⟨_,known,makes⟩ := made isCall
      obtain ⟨_,known',makes'⟩ := made isCall'
      cases makes
      cases makes'
      have equal := unequal known known' (congrArg Structure.sequence same)
      exact interned.same (known.component interned (by simp [RuntimeType.components]))
        (known'.component interned (by simp [RuntimeType.components])) (by simpa [RuntimeType.equals] using equal)
    · obtain ⟨_,known,makes⟩ := made isCall
      obtain ⟨_,known',makes'⟩ := made isCall'
      cases makes
      cases makes'
      have equal := unequal known known' (congrArg₂ Structure.assocArray same same')
      simp only [RuntimeType.equals,decide_eq_true_eq] at equal
      exact ⟨interned.same (known.component interned (by simp [RuntimeType.components]))
        (known'.component interned (by simp [RuntimeType.components])) equal.1,
        interned.same (known.component interned (by simp [RuntimeType.components]))
        (known'.component interned (by simp [RuntimeType.components])) equal.2⟩
  · intro shared type other known known'
    have equal : type.equals other = true ↔ type.structure_ text = other.structure_ text :=
      ⟨interned.structure_of_equals known known',interned.equals_of_structure shared known known'⟩
    refine ⟨equal,?_⟩
    rw [← equal,assertType]
    split_ifs with isEqual <;> simp [isEqual]

end

/-- A reference that is made twice, of which only the first is in sequences and associative arrays. -/
def oneReference : List Call :=
  [.defineStructType 0,.refType (.structTy 0 0),.sequenceType (.referenceTy 1 (.structTy 0 0)),
    .refType (.structTy 0 0),.structType 0,.sequenceType (.referenceTy 1 (.structTy 0 0)),
    .integerType 64 false,.assocArrayType (.integerTy 4 64 false) (.referenceTy 1 (.structTy 0 0))]

def oneReferenceTypes : List RuntimeType :=
  [.structTy 0 0,.referenceTy 1 (.structTy 0 0),.sequenceTy 2 (.referenceTy 1 (.structTy 0 0)),
    .referenceTy 3 (.structTy 0 0),.integerTy 4 64 false,
    .assocArrayTy 5 (.integerTy 4 64 false) (.referenceTy 1 (.structTy 0 0))]

theorem oneReference_run : run oneReference = some oneReferenceTypes := by decide

theorem oneReference_structural : Structural (fun _ => "Node") oneReferenceTypes := by
  refine (structural_iff oneReference oneReferenceTypes oneReference_run).mpr ⟨?_,?_,?_⟩
  · simp [oneReference]
  · simp [oneReference]
  · intro key value key' value' isCall isCall' _ _
    simp only [oneReference,List.mem_cons,reduceCtorEq,Call.assocArrayType.injEq,List.not_mem_nil,or_false,
      false_or] at isCall isCall'
    obtain ⟨rfl,rfl⟩ := isCall
    obtain ⟨rfl,rfl⟩ := isCall'
    exact ⟨rfl,rfl⟩

def twoReferences : List Call :=
  [.structType 0,.refType (.structTy 0 0),.sequenceType (.referenceTy 1 (.structTy 0 0)),
    .refType (.structTy 0 0),.sequenceType (.referenceTy 3 (.structTy 0 0))]

def twoReferencesTypes : List RuntimeType :=
  [.structTy 0 0,.referenceTy 1 (.structTy 0 0),.sequenceTy 2 (.referenceTy 1 (.structTy 0 0)),
    .referenceTy 3 (.structTy 0 0),.sequenceTy 4 (.referenceTy 3 (.structTy 0 0))]

theorem twoReferences_run : run twoReferences = some twoReferencesTypes := by decide

theorem twoReferences_not_structural :
    run twoReferences = some twoReferencesTypes ∧ ¬ Structural (fun _ => "Node") twoReferencesTypes := by
  refine ⟨twoReferences_run,fun structural => ?_⟩
  have equal := (structural (.sequenceTy 2 (.referenceTy 1 (.structTy 0 0)))
    (.sequenceTy 4 (.referenceTy 3 (.structTy 0 0))) (by decide) (by decide)).1.mpr rfl
  exact absurd equal (by decide)

end RuntimeTypes
end Memoir
