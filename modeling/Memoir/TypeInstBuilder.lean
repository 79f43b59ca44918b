import Memoir.TypeAnalysisSound

/-! The builder of type instructions, and the types that come back when what it has built is analysed. -/
namespace Memoir.TypeAnalysis
open TypeGetters Outcomes

namespace Module

theorem insert_linked (module : Module) (kind : Kind) (value user : Value) :
    user ∈ (if value ∈ kind.operands then module.kinds.length :: module.users value
      else module.users value) ↔
      ∃ kind',(module.kinds ++ [kind])[user]? = some kind' ∧ value ∈ kind'.operands := by
  have old : user ∈ module.users value → user < module.kinds.length := by
    intro used
    obtain ⟨_,found,_⟩ := (module.linked value user).mp used
    exact (List.getElem?_eq_some_iff.mp found).1
  rcases Nat.lt_trichotomy user module.kinds.length with below | rfl | above
  · rw [List.getElem?_append_left below,← module.linked value user]
    split
    · rw [List.mem_cons]
      exact or_iff_right (Nat.ne_of_lt below)
    · exact Iff.rfl
  · rw [List.getElem?_append_right (Nat.le_refl _),Nat.sub_self]
    constructor
    · intro used
      refine ⟨kind,rfl,?_⟩
      by_contra absent
      rw [if_neg absent] at used
      exact absurd (old used) (Nat.lt_irrefl _)
    · rintro ⟨_,found,member⟩
      obtain rfl := Option.some.inj found
      rw [if_pos member]
      exact List.mem_cons_self
  · constructor
    · intro used
      split at used
      · rcases List.mem_cons.mp used with rfl | used
        · exact absurd above (Nat.lt_irrefl _)
        · exact absurd (old used) (Nat.not_lt_of_lt above)
      · exact absurd (old used) (Nat.not_lt_of_lt above)
    · rintro ⟨_,found,_⟩
      rw [List.getElem?_eq_none (by simp; omega)] at found
      exact absurd found (by simp)

def insert (module : Module) (kind : Kind) : Module × Value :=
  (⟨module.kinds ++ [kind],
    fun value => if value ∈ kind.operands then module.kinds.length :: module.users value
      else module.users value,module.insert_linked kind⟩,module.kinds.length)

end Module

def Kind.isInstruction : Kind → Bool
  | .globalString _ | .constantGetElementPtr _ | .constantNull | .argument => false
  | _ => true

def createIntegerTypeInst (type : IntegerType) : Option Kind :=
  if !type.isSigned then
    match type.getBitWidth with
    | 64 => some (.integerType .u64)
    | 32 => some (.integerType .u32)
    | 16 => some (.integerType .u16)
    | 8 => some (.integerType .u8)
    | _ => none
  else
    match type.getBitWidth with
    | 64 => some (.integerType .i64)
    | 32 => some (.integerType .i32)
    | 16 => some (.integerType .i16)
    | 8 => some (.integerType .i8)
    | 2 => some (.integerType .i2)
    | 1 => some (.integerType .boolean)
    | _ => none

namespace Module

def getNameOperand (module : Module) (definition : Value) : Option Value :=
  match module.kind definition with
  | .defineStructType name _ => some name
  | _ => none

def cloneName (module : Module) (name : Value) : Module × Value :=
  if (module.kind name).isInstruction then module.insert (module.kind name) else (module,name)

def createTypeInst (state : State) : Shape → Module → Option (Module × Value)
  | .float,module => some (module.insert .floatType)
  | .double,module => some (module.insert .doubleType)
  | .pointer,module => some (module.insert .pointerType)
  | .integer type,module => (createIntegerTypeInst type).map module.insert
  | .reference type,module => do
    let referenced ← createTypeInst state type module
    return referenced.1.insert (.referenceType referenced.2)
  | .struct name,module => do
    let type ← state.structType name
    let name ← module.getNameOperand type.definition
    let cloned := module.cloneName name
    return cloned.1.insert (.structType cloned.2)
  | .fieldArray type _,module => createTypeInst state type module
  | .staticTensor _ _,_ => none
  | .tensor _ _,_ => none
  | .assocArray keyType valueType,module => do
    let key ← createTypeInst state keyType module
    let element ← createTypeInst state valueType key.1
    return element.1.insert (.assocArrayType key.2 element.2)
  | .sequence type,module => do
    let element ← createTypeInst state type module
    return element.1.insert (.sequenceType element.2)

end Module

def State.invalidate (state : State) : State := {state with valueToType := fun _ => none}

inductive Reached : Module → State → Prop
  | initial {module : Module} (wellFormed : WellFormed module) : Reached module .initial
  | query {module : Module} {state after : State} {fuel : Nat} {value : Value} {result : Option Shape}
    (reached : Reached module state) (ran : getType module fuel value state = .returned result after) :
    Reached module after
  | invalidate {module : Module} {state : State} (reached : Reached module state) :
    Reached module state.invalidate
  | insert {module : Module} {state : State} (reached : Reached module state) (kind : Kind)
    (wellFormed : WellFormed (module.insert kind).1) : Reached (module.insert kind).1 state

/-- A struct type whose definitions are complete does not contain or refer to itself. -/
def NonRecursive (module : Module) (name : String) : Prop :=
  ∀ value operand fieldTypes,module.kind value = .defineStructType operand fieldTypes →
    module.getName operand = some name → ∃ depth,complete module depth value

/-- The types that are built from the leaves, references, known struct types and collections. -/
def Built (module : Module) (state : State) : Shape → Prop
  | .integer _ | .float | .double | .pointer => True
  | .struct name => (state.structType name).isSome ∧ NonRecursive module name
  | .reference type | .sequence type => Built module state type
  | .assocArray keyType valueType => Built module state keyType ∧ Built module state valueType
  | .fieldArray _ _ | .staticTensor _ _ | .tensor _ _ => False

def creatable : Shape → Bool
  | .integer type => type != .u2 && type != .boolean
  | .float | .double | .pointer | .struct _ => true
  | .reference type | .sequence type | .fieldArray type _ => creatable type
  | .assocArray keyType valueType => creatable keyType && creatable valueType
  | .staticTensor _ _ | .tensor _ _ => false

/-- The type is built, and its analysis, to all large enough numbers of levels, gives it back. -/
def RoundTrips (module : Module) (state : State) (type : Shape) : Prop :=
  ∃ after value,module.createTypeInst state type = some (after,value) ∧
    ∃ enough,∀ fuel ≥ enough,∃ last,getType after fuel value state = .returned (some type) last

structure Grown (module after : Module) : Prop where
  kinds : ∀ value < module.kinds.length,after.kind value = module.kind value
  length : module.kinds.length ≤ after.kinds.length

structure Extended (module after : Module) : Prop extends Grown module after where
  old : ∀ value name fieldTypes,after.kind value = .defineStructType name fieldTypes →
    value < module.kinds.length
  definitions : ∀ name text,module.getName name = some text →
    after.definitions name = module.definitions name

def Module.nameString (module : Module) (name : Value) : Value :=
  match module.kind name with
  | .getElementPtr pointer | .constantGetElementPtr pointer => pointer
  | _ => name

section Growth
variable {module after : Module} {value name : Value} {text : String} {depth : Nat}

theorem Grown.trans {middle : Module} (first : Grown module middle) (second : Grown middle after) :
    Grown module after := by
  refine ⟨fun value below => ?_,Nat.le_trans first.length second.length⟩
  rw [second.kinds value (Nat.lt_of_lt_of_le below first.length),first.kinds value below]

theorem globalText_known (found : module.globalText value = some text) :
    value < module.kinds.length :=
  kind_known (kind_of_globalText found) (by simp)

theorem Grown.globalText (grown : Grown module after) (found : module.globalText value = some text) :
    after.globalText value = some text := by
  rw [Module.globalText,grown.kinds value (globalText_known found)]
  exact found

/-- A name that can be read is a string, or points to one. -/
theorem nameString_of_getName (found : module.getName name = some text) :
    module.globalText (module.nameString name) = some text ∧
      module.stripPointerCasts name = module.nameString name ∧ name < module.kinds.length := by
  have strip : ∀ {value} fuel,module.globalText value = some text → module.strip fuel value = value := by
    intro value fuel isText
    cases fuel with
    | zero => rfl
    | succ fuel => rw [Module.strip,kind_of_globalText isText]
  have pointer : ∀ {pointer},module.kind name = .getElementPtr pointer ∨
      module.kind name = .constantGetElementPtr pointer →
      module.globalText pointer = some text ∧ module.stripPointerCasts name = pointer ∧
        name < module.kinds.length := by
    intro pointer isPointer
    rw [getName_of_pointer isPointer] at found
    have known : name < module.kinds.length := by
      rcases isPointer with isPointer | isPointer
      · exact kind_known isPointer (by simp)
      · exact kind_known isPointer (by simp)
    refine ⟨found,?_,known⟩
    obtain ⟨fuel,isLength⟩ := Nat.exists_eq_succ_of_ne_zero (Nat.ne_zero_of_lt known)
    rw [Module.stripPointerCasts,isLength,Nat.succ_eq_add_one,Module.strip]
    rcases isPointer with isPointer | isPointer
    · rw [isPointer]
      exact strip fuel found
    · rw [isPointer]
      exact strip fuel found
  cases isKind : module.kind name with
  | getElementPtr other =>
    simp only [Module.nameString,isKind]
    exact pointer (.inl isKind)
  | constantGetElementPtr other =>
    simp only [Module.nameString,isKind]
    exact pointer (.inr isKind)
  | _ =>
    simp only [Module.nameString,Module.getName,isKind] at found ⊢
    exact ⟨found,strip _ found,globalText_known found⟩

theorem Grown.nameString (grown : Grown module after) (known : name < module.kinds.length) :
    after.nameString name = module.nameString name := by
  rw [Module.nameString,Module.nameString,grown.kinds name known]

theorem Grown.getName (grown : Grown module after) (found : module.getName name = some text) :
    after.getName name = some text := by
  obtain ⟨isText,_,known⟩ := nameString_of_getName found
  have isText := grown.globalText isText
  cases isKind : module.kind name <;>
    simp_all [Module.getName,Module.nameString,grown.kinds name known]

theorem Grown.strip (grown : Grown module after) (found : module.getName name = some text) :
    after.stripPointerCasts name = module.stripPointerCasts name := by
  obtain ⟨_,isString,known⟩ := nameString_of_getName found
  rw [isString,(nameString_of_getName (grown.getName found)).2.1,grown.nameString known]

theorem WellFormed.parts_known (wellFormed : WellFormed module) {part : Value}
    (member : part ∈ (module.kind value).parts) : part < module.kinds.length :=
  wellFormed.known value part (List.mem_append_right _ member)

theorem WellFormed.named {kind : Kind} (wellFormed : WellFormed module)
    (isKind : module.kind value = kind) (member : name ∈ kind.names) :
    ∃ text,module.getName name = some text := by
  apply Option.isSome_iff_exists.mp
  apply wellFormed.names value name
  rw [isKind]
  exact member

theorem Grown.typeValue (grown : Grown module after) (isType : TypeValue module value) :
    TypeValue after value := by
  induction isType with
  | instruction isInst =>
    have known := (TypeValue.instruction isInst).known
    exact .instruction (grown.kinds _ known ▸ isInst)
  | load isLoad stored ih =>
    have known := (TypeValue.load isLoad stored).known
    exact .load ((grown.kinds _ known).trans isLoad) ih

theorem Grown.typeValue_of (wellFormed : WellFormed module) (grown : Grown module after)
    (isType : TypeValue after value) (known : value < module.kinds.length) :
    TypeValue module value := by
  induction isType with
  | instruction isInst => exact .instruction (grown.kinds _ known ▸ isInst)
  | load isLoad _ ih =>
    rw [grown.kinds _ known] at isLoad
    exact .load isLoad (ih (wellFormed.parts_known (mem_parts isLoad List.mem_cons_self)))

theorem Grown.shapeOf (wellFormed : WellFormed module) (grown : Grown module after) (depth : Nat)
    (known : value < module.kinds.length) : shapeOf after depth value = shapeOf module depth value := by
  induction depth generalizing value with
  | zero => rfl
  | succ depth ih =>
    have part : ∀ part ∈ (module.kind value).parts,
        TypeAnalysis.shapeOf after depth part = TypeAnalysis.shapeOf module depth part :=
      fun _ member => ih (wellFormed.parts_known member)
    rw [TypeAnalysis.shapeOf,TypeAnalysis.shapeOf,grown.kinds value known]
    cases isKind : module.kind value with
    | referenceType _ | staticTensorType _ _ | tensorType _ _ | sequenceType _ =>
      rw [isKind] at part
      simp only [part _ List.mem_cons_self]
    | assocArrayType keyType valueType =>
      rw [isKind] at part
      simp only [part keyType List.mem_cons_self,part valueType (by simp [Kind.parts,Kind.types])]
    | defineStructType name fieldTypes =>
      obtain ⟨text,isName⟩ := wellFormed.named isKind List.mem_cons_self
      simp only [isName,grown.getName isName]
    | structType name =>
      obtain ⟨text,isName⟩ := wellFormed.named isKind List.mem_cons_self
      obtain ⟨isText,isString,_⟩ := nameString_of_getName isName
      simp only [grown.strip isName,isString,isText,grown.globalText isText]
    | load stored =>
      rw [isKind] at part
      rcases stored with _ | _ | ⟨first,rest⟩
      · rfl
      · rfl
      · exact part first List.mem_cons_self
    | _ => rfl

theorem Extended.complete (wellFormed : WellFormed module) (extended : Extended module after)
    (depth : Nat) (known : value < module.kinds.length) :
    complete after depth value = complete module depth value := by
  induction depth generalizing value with
  | zero => rfl
  | succ depth ih =>
    have part : ∀ {value part},part ∈ (module.kind value).parts →
        TypeAnalysis.complete after depth part = TypeAnalysis.complete module depth part :=
      fun member => ih (wellFormed.parts_known member)
    have fields : ∀ {value name fieldTypes},module.kind value = .defineStructType name fieldTypes →
        ((after.getName name).isSome && fieldTypes.all (TypeAnalysis.complete after depth)) =
          ((module.getName name).isSome && fieldTypes.all (TypeAnalysis.complete module depth)) := by
      intro value name fieldTypes isDefinition
      obtain ⟨text,isName⟩ := wellFormed.named isDefinition List.mem_cons_self
      rw [isName,extended.getName isName]
      congr 1
      rw [Bool.eq_iff_iff,List.all_eq_true,List.all_eq_true]
      have same : ∀ field ∈ fieldTypes,TypeAnalysis.complete after depth field =
          TypeAnalysis.complete module depth field := fun field member => part (mem_parts isDefinition member)
      exact forall₂_congr fun field member => by rw [same field member]
    rw [TypeAnalysis.complete,TypeAnalysis.complete,extended.kinds value known]
    cases isKind : module.kind value with
    | referenceType _ | staticTensorType _ _ | tensorType _ _ | sequenceType _ =>
      exact part (mem_parts isKind List.mem_cons_self)
    | assocArrayType keyType valueType =>
      dsimp only
      have isValue : valueType ∈ [keyType,valueType] := by simp
      rw [part (mem_parts isKind (List.mem_cons_self : keyType ∈ [keyType,valueType])),
        part (mem_parts isKind isValue)]
    | defineStructType name fieldTypes => exact fields isKind
    | structType name =>
      obtain ⟨text,isName⟩ := wellFormed.named isKind List.mem_cons_self
      simp only [extended.definitions name text isName]
      cases first : (module.definitions name).head? with
      | none => rfl
      | some definition =>
        exact fields (mem_definitions wellFormed (List.mem_of_mem_head? first)).1
    | load stored =>
      rcases stored with _ | _ | ⟨first,rest⟩
      · rfl
      · rfl
      · exact part (mem_parts isKind List.mem_cons_self)
    | _ => rfl

theorem Sound.grown {state : State} (sound : Sound module state) (wellFormed : WellFormed module)
    (grown : Grown module after) : Sound after state := by
  have known : ∀ value type,state.valueToType value = some type → value < module.kinds.length := by
    intro value type found
    exact sound.known value (by simp [found])
  refine ⟨?_,?_,?_,?_⟩
  · intro value type isType found depth shape isShape
    have known := known value type found
    rw [grown.shapeOf wellFormed depth known] at isShape
    exact sound.types value type (grown.typeValue_of wellFormed isType known) found depth shape isShape
  · intro value operand type asserts found depth shape isShape
    rw [grown.kinds value (known value type found)] at asserts
    obtain ⟨_,isTypes,_⟩ := kind_of_assertedType asserts
    have isType := wellFormed.types value operand (isTypes ▸ List.mem_cons_self)
    rw [grown.shapeOf wellFormed depth isType.known] at isShape
    exact sound.asserted value operand type asserts found depth shape isShape
  · intro type member
    obtain ⟨name,fieldTypes,isDefinition,isName⟩ := sound.defined type member
    refine ⟨name,fieldTypes,?_,grown.getName isName⟩
    rw [grown.kinds _ (kind_known isDefinition (by simp))]
    exact isDefinition
  · intro value typed
    exact Nat.lt_of_lt_of_le (sound.known value typed) grown.length

end Growth

section Insert
variable {module after : Module} {kind : Kind} {value name : Value}

theorem kind_insert_new (module : Module) (kind : Kind) :
    (module.insert kind).1.kind module.kinds.length = kind := by
  rw [Module.kind,Module.insert]
  simp

theorem grown_insert (module : Module) (kind : Kind) : Grown module (module.insert kind).1 := by
  refine ⟨fun value below => ?_,by simp [Module.insert]⟩
  rw [Module.kind,Module.kind,Module.insert]
  simp only [List.getElem?_append_left below]

theorem kind_insert_above (above : module.kinds.length < value) :
    (module.insert kind).1.kind value = .other := by
  rw [Module.kind,Module.insert,List.getElem?_eq_none (by simp; omega)]
  rfl

/-- What the builder inserts: operands that exist, and no collections. -/
structure Insertable (module : Module) (kind : Kind) : Prop where
  known : ∀ operand ∈ kind.operands ++ kind.parts,operand < module.kinds.length
  names : ∀ name ∈ kind.names,(module.getName name).isSome
  types : ∀ type ∈ kind.types,TypeValue module type
  objects : kind.objects = []

theorem Insertable.wellFormed (insertable : Insertable module kind) (wellFormed : WellFormed module) :
    WellFormed (module.insert kind).1 := by
  have grown := grown_insert module kind
  have named : ∀ name,(module.getName name).isSome → ((module.insert kind).1.getName name).isSome := by
    intro name named
    obtain ⟨text,isName⟩ := Option.isSome_iff_exists.mp named
    rw [grown.getName isName]
    rfl
  have other : ∀ value,module.kinds.length < value → (module.insert kind).1.kind value = .other :=
    fun _ => kind_insert_above
  refine ⟨?_,?_,?_,?_⟩
  · intro value operand member
    apply Nat.lt_of_lt_of_le _ grown.length
    rcases Nat.lt_trichotomy value module.kinds.length with below | rfl | above
    · rw [grown.kinds value below] at member
      exact wellFormed.known value operand member
    · rw [kind_insert_new] at member
      exact insertable.known operand member
    · rw [other value above] at member
      exact absurd member (by simp [Kind.operands,Kind.parts,Kind.types,Kind.returnTypes])
  · intro value name member
    rcases Nat.lt_trichotomy value module.kinds.length with below | rfl | above
    · rw [grown.kinds value below] at member
      exact named name (wellFormed.names value name member)
    · rw [kind_insert_new] at member
      exact named name (insertable.names name member)
    · rw [other value above] at member
      exact absurd member (by simp [Kind.names])
  · intro value type member
    rcases Nat.lt_trichotomy value module.kinds.length with below | rfl | above
    · rw [grown.kinds value below] at member
      exact grown.typeValue (wellFormed.types value type member)
    · rw [kind_insert_new] at member
      exact grown.typeValue (insertable.types type member)
    · rw [other value above] at member
      exact absurd member (by simp [Kind.types,Kind.returnTypes])
  · intro value object member
    rcases Nat.lt_trichotomy value module.kinds.length with below | rfl | above
    · rw [grown.kinds value below] at member
      obtain ⟨known,notType,unasserted⟩ := wellFormed.objects value object member
      refine ⟨Nat.lt_of_lt_of_le known grown.length,?_,grown.kinds object known ▸ unasserted⟩
      exact fun isType => notType (grown.typeValue_of wellFormed isType known)
    · rw [kind_insert_new,insertable.objects] at member
      exact absurd member List.not_mem_nil
    · rw [other value above] at member
      exact absurd member (by simp [Kind.objects])

theorem users_insert (unused : value ∉ kind.operands) :
    (module.insert kind).1.users value = module.users value := if_neg unused

theorem used_known {user : Value} (used : user ∈ module.users value) : user < module.kinds.length := by
  obtain ⟨_,found,_⟩ := (module.linked value user).mp used
  exact (List.getElem?_eq_some_iff.mp found).1

/-- The definitions that a user leads to stay, unless the new instruction uses the user. -/
theorem userDefinitions_insert {user : Value} (known : user < module.kinds.length)
    (unused : user ∉ kind.operands) :
    (module.insert kind).1.userDefinitions user = module.userDefinitions user := by
  have definition : ∀ other ∈ module.users user,
      (module.insert kind).1.definition other = module.definition other := by
    intro other used
    rw [Module.definition,(grown_insert module kind).kinds other (used_known used),Module.definition]
  rw [Module.userDefinitions,(grown_insert module kind).kinds user known,Module.userDefinitions,
    users_insert unused]
  cases module.kind user with
  | getElementPtr _ | constantGetElementPtr _ =>
    dsimp only
    exact List.filterMap_congr definition
  | _ => rfl

/-- A new instruction that is not a definition leads to no new definitions. -/
theorem extended_insert (wellFormed : WellFormed module) (new : kind.operands = [] ∨
    ∃ pointer text,kind = .getElementPtr pointer ∧ module.globalText pointer = some text) :
    Extended module (module.insert kind).1 := by
  have grown := grown_insert module kind
  have old : ∀ value name fieldTypes,
      (module.insert kind).1.kind value = .defineStructType name fieldTypes →
      value < module.kinds.length := by
    intro value name fieldTypes isDefinition
    rcases Nat.lt_trichotomy value module.kinds.length with below | rfl | above
    · exact below
    · rw [kind_insert_new] at isDefinition
      rcases new with none | ⟨_,_,isPointer,_⟩
      · exact absurd none (by simp [isDefinition,Kind.operands])
      · exact absurd (isPointer.symm.trans isDefinition) (by simp)
    · exact absurd ((kind_insert_above above).symm.trans isDefinition) (by simp)
  refine ⟨grown,old,fun name text isName => ?_⟩
  obtain ⟨isText,isString,_⟩ := nameString_of_getName isName
  have users : ∀ user ∈ module.users (module.nameString name),
      (module.insert kind).1.userDefinitions user = module.userDefinitions user := by
    intro user used
    apply userDefinitions_insert (used_known used)
    rcases new with none | ⟨pointer,text,rfl,isGlobal⟩
    · rw [none]
      exact List.not_mem_nil
    · intro member
      -- The new instruction points to a string, and a string uses nothing.
      obtain rfl := List.mem_singleton.mp member
      have operand := mem_operands used
      rw [kind_of_globalText isGlobal] at operand
      exact absurd operand List.not_mem_nil
  rw [Module.definitions,Module.definitions,grown.strip isName,isString]
  by_cases used : module.nameString name ∈ kind.operands
  · rcases new with none | ⟨pointer,text,rfl,isGlobal⟩
    · rw [none] at used
      exact absurd used List.not_mem_nil
    · have nothing : (module.insert (.getElementPtr pointer)).1.userDefinitions module.kinds.length = [] := by
        have unused : module.kinds.length ∉ (Kind.getElementPtr pointer).operands := by
          intro member
          have known := globalText_known isGlobal
          rw [← List.mem_singleton.mp member] at known
          exact absurd known (Nat.lt_irrefl _)
        rw [Module.userDefinitions,kind_insert_new]
        dsimp only
        rw [users_insert unused,List.filterMap_eq_nil_iff]
        intro user used
        have known := wellFormed.known user module.kinds.length
          (List.mem_append_left _ (mem_operands used))
        exact absurd known (Nat.lt_irrefl _)
      have isUsers : (module.insert (.getElementPtr pointer)).1.users (module.nameString name) =
          module.kinds.length :: module.users (module.nameString name) := if_pos used
      rw [isUsers,List.flatMap_cons,nothing,List.nil_append]
      exact List.flatMap_congr users
  · rw [users_insert used]
    exact List.flatMap_congr users

end Insert

/-- What the builder leaves: the type instruction of a type, complete. -/
structure Created (module after : Module) (value : Value) (type : Shape) : Prop where
  extended : Extended module after
  wellFormed : WellFormed after
  isType : TypeValue after value
  whole : ∃ depth,shapeOf after depth value = some type ∧ complete after depth value

theorem Extended.trans {module middle after : Module} (first : Extended module middle)
    (second : Extended middle after) : Extended module after := by
  refine ⟨first.toGrown.trans second.toGrown,?_,fun name text isName => ?_⟩
  · intro value name fieldTypes isDefinition
    rw [second.kinds value (second.old value name fieldTypes isDefinition)] at isDefinition
    exact first.old value name fieldTypes isDefinition
  rw [second.definitions name text (first.getName isName),first.definitions name text isName]

section Create
variable {module middle after : Module} {kind : Kind} {value : Value} {state : State} {type : Shape}

theorem created_insert (extended : Extended module middle) (wellFormed : WellFormed middle)
    (insertable : Insertable middle kind) (isInst : kind.isTypeInst) (new : kind.operands = [])
    (whole : ∃ depth,shapeOf (middle.insert kind).1 depth middle.kinds.length = some type ∧
      complete (middle.insert kind).1 depth middle.kinds.length) :
    Created module (middle.insert kind).1 (middle.insert kind).2 type := by
  refine ⟨?_,insertable.wellFormed wellFormed,.instruction ?_,whole⟩
  · exact extended.trans (extended_insert wellFormed (.inl new))
  · change ((middle.insert kind).1.kind middle.kinds.length).isTypeInst
    rw [kind_insert_new]
    exact isInst

theorem Extended.refl (module : Module) : Extended module module :=
  ⟨⟨fun _ _ => rfl,Nat.le_refl _⟩,fun _ _ _ isDefinition => kind_known isDefinition (by simp),
    fun _ _ _ => rfl⟩

theorem created_leaf (wellFormed : WellFormed module) (isInst : kind.isTypeInst)
    (new : kind.operands = []) (names : kind.names = []) (types : kind.types = [])
    (isShape : ∀ module value,Module.kind module value = kind → shapeOf module 1 value = some type)
    (isComplete : ∀ module value,Module.kind module value = kind → complete module 1 value) :
    Created module (module.insert kind).1 (module.insert kind).2 type := by
  apply created_insert (.refl module) wellFormed _ isInst new
  · exact ⟨1,isShape _ _ (kind_insert_new module kind),isComplete _ _ (kind_insert_new module kind)⟩
  · refine ⟨?_,?_,?_,?_⟩
    · intro operand member
      rw [new,List.nil_append] at member
      cases kind <;> simp_all [Kind.parts,Kind.isTypeInst]
    · simp [names]
    · simp [types]
    · cases kind <;> simp_all [Kind.isTypeInst,Kind.objects]

/-- An instruction whose type is made of the type of one part. -/
theorem Created.part {make : Shape → Shape} (created : Created module middle value type)
    (isInst : kind.isTypeInst) (new : kind.operands = []) (names : kind.names = [])
    (parts : kind.types = [value])
    (isShape : ∀ module user depth,Module.kind module user = kind →
      shapeOf module (depth + 1) user = (shapeOf module depth value).map make)
    (isComplete : ∀ module user depth,Module.kind module user = kind →
      complete module (depth + 1) user = complete module depth value) :
    Created module (middle.insert kind).1 (middle.insert kind).2 (make type) := by
  obtain ⟨depth,found,whole⟩ := created.whole
  have extended := extended_insert created.wellFormed (.inl new)
  apply created_insert created.extended created.wellFormed _ isInst new
  · have isNew := kind_insert_new middle kind
    refine ⟨depth + 1,?_,?_⟩
    · rw [isShape _ _ _ isNew,extended.shapeOf created.wellFormed depth created.isType.known,found]
      rfl
    · rw [isComplete _ _ _ isNew,extended.complete created.wellFormed depth created.isType.known]
      exact whole
  · refine ⟨?_,?_,?_,?_⟩
    · intro operand member
      have isPart : kind.parts = [value] := by
        cases kind <;> simp_all [Kind.parts,Kind.isTypeInst]
      rw [new,List.nil_append,isPart] at member
      exact List.mem_singleton.mp member ▸ created.isType.known
    · simp [names]
    · intro part member
      rw [parts] at member
      exact List.mem_singleton.mp member ▸ created.isType
    · cases kind <;> simp_all [Kind.isTypeInst,Kind.objects]

theorem Created.assocArray {key element : Value} {keyType valueType : Shape}
    (first : Created module middle key keyType) (second : Created middle after element valueType) :
    Created module (after.insert (.assocArrayType key element)).1
      (after.insert (.assocArrayType key element)).2 (.assocArray keyType valueType) := by
  obtain ⟨depth,found,whole⟩ := first.whole
  obtain ⟨depth',found',whole'⟩ := second.whole
  have isKey := second.extended.typeValue first.isType
  have known := first.isType.known
  have extended : Extended after (after.insert (.assocArrayType key element)).1 :=
    extended_insert second.wellFormed (.inl rfl)
  rw [← second.extended.shapeOf first.wellFormed depth known] at found
  rw [← second.extended.complete first.wellFormed depth known] at whole
  apply created_insert (first.extended.trans second.extended) second.wellFormed _ rfl rfl
  · refine ⟨max depth depth' + 1,?_,?_⟩
    · rw [shapeOf,kind_insert_new]
      dsimp only
      rw [extended.shapeOf second.wellFormed _ isKey.known,
        extended.shapeOf second.wellFormed _ second.isType.known,
        shapeOf_mono found (Nat.le_max_left _ _),shapeOf_mono found' (Nat.le_max_right _ _)]
      rfl
    · rw [complete,kind_insert_new]
      dsimp only
      rw [extended.complete second.wellFormed _ isKey.known,
        extended.complete second.wellFormed _ second.isType.known,
        complete_mono whole (Nat.le_max_left _ _),complete_mono whole' (Nat.le_max_right _ _)]
      rfl
  · have types : ∀ type ∈ [key,element],TypeValue after type := by
      intro type member
      rcases List.mem_pair.mp member with rfl | rfl
      · exact isKey
      · exact second.isType
    exact ⟨fun operand member => (types operand member).known,by simp [Kind.names],types,rfl⟩

/-- A definition is found by its name. -/
theorem definition_mem {name definition : Value} {fieldTypes : List Value} {text : String}
    (isDefinition : module.kind definition = .defineStructType name fieldTypes)
    (isName : module.getName name = some text) :
    ⟨definition,name,fieldTypes⟩ ∈ module.definitions name := by
  have linked : ∀ {value user kind},module.kind user = kind → kind ≠ .other →
      value ∈ kind.operands → user ∈ module.users value := by
    rintro value user kind isKind proper member
    have found := List.getElem?_eq_getElem (kind_known isKind proper)
    exact (module.linked value user).mpr ⟨_,found,by rw [← kind_of_getElem found,isKind]; exact member⟩
  have used := linked isDefinition (by simp) List.mem_cons_self
  have leads : (⟨definition,name,fieldTypes⟩ : Definition) ∈
      (module.users name).filterMap module.definition := by
    apply List.mem_filterMap.mpr
    exact ⟨definition,used,by rw [Module.definition,isDefinition]⟩
  rw [Module.definitions,(nameString_of_getName isName).2.1,List.mem_flatMap]
  cases isKind : module.kind name with
  | getElementPtr pointer =>
    refine ⟨name,?_,by rw [Module.userDefinitions,isKind]; exact leads⟩
    rw [Module.nameString,isKind]
    exact linked isKind (by simp) List.mem_cons_self
  | constantGetElementPtr pointer =>
    refine ⟨name,?_,by rw [Module.userDefinitions,isKind]; exact leads⟩
    rw [Module.nameString,isKind]
    exact linked isKind (by simp) List.mem_cons_self
  | _ =>
    refine ⟨definition,?_,by rw [Module.userDefinitions,isDefinition]; exact List.mem_cons_self⟩
    rw [Module.nameString,isKind]
    exact used

theorem created_struct {name : Value} {text : String} {definition : Definition}
    (extended : Extended module middle) (wellFormed : WellFormed middle)
    (isName : middle.getName name = some text)
    (first : (middle.definitions name).head? = some definition)
    (whole : ∃ depth,complete middle depth definition.value) :
    Created module (middle.insert (.structType name)).1 (middle.insert (.structType name)).2
      (.struct text) := by
  have insertable : Insertable middle (.structType name) := by
    refine ⟨?_,?_,?_,rfl⟩
    · simp [Kind.operands,Kind.parts,Kind.types,Kind.returnTypes]
    · simp [Kind.names,isName]
    · simp [Kind.types,Kind.returnTypes]
  have grown := extended_insert wellFormed (.inl rfl : (Kind.structType name).operands = [] ∨ _)
  have isStruct := kind_insert_new middle (.structType name)
  obtain ⟨depth,whole⟩ := whole
  have isDefinition := (mem_definitions wellFormed (List.mem_of_mem_head? first)).1
  apply created_insert extended wellFormed insertable rfl rfl
  refine ⟨depth,?_,?_⟩
  · have found : shapeOf (middle.insert (.structType name)).1 1 middle.kinds.length =
        some (.struct text) := by
      obtain ⟨isText,isString,_⟩ := nameString_of_getName (grown.getName isName)
      rw [shapeOf,isStruct]
      dsimp only
      rw [isString,isText]
      rfl
    apply shapeOf_mono found
    apply Nat.one_le_iff_ne_zero.mpr
    rintro rfl
    exact absurd whole (by simp [complete])
  · rw [← grown.complete wellFormed depth (kind_known isDefinition (by simp))] at whole
    rw [← grown.definitions name text isName] at first
    rw [← complete_definition (insertable.wellFormed wellFormed) isStruct first depth]
    exact whole

theorem cloneName_spec {name : Value} {text : String} (wellFormed : WellFormed module)
    (isName : module.getName name = some text) :
    Extended module (module.cloneName name).1 ∧ WellFormed (module.cloneName name).1 ∧
      (module.cloneName name).1.getName (module.cloneName name).2 = some text ∧
      (module.cloneName name).1.definitions (module.cloneName name).2 = module.definitions name := by
  obtain ⟨isText,isString,_⟩ := nameString_of_getName isName
  rw [Module.cloneName]
  split
  · rename_i isInstruction
    cases isKind : module.kind name with
    | getElementPtr pointer =>
      rw [Module.nameString,isKind] at isText
      have extended : Extended module (module.insert (.getElementPtr pointer)).1 :=
        extended_insert wellFormed (.inr ⟨pointer,text,rfl,isText⟩)
      have isNew := kind_insert_new module (.getElementPtr pointer)
      have named : (module.insert (.getElementPtr pointer)).1.getName module.kinds.length = some text := by
        rw [getName_of_pointer (.inl isNew)]
        exact extended.globalText isText
      refine ⟨extended,?_,named,?_⟩
      · apply Insertable.wellFormed _ wellFormed
        refine ⟨?_,by simp [Kind.names],by simp [Kind.types,Kind.returnTypes],rfl⟩
        intro operand member
        obtain rfl : operand = pointer := by
          simpa [Kind.operands,Kind.parts,Kind.types,Kind.returnTypes] using member
        exact globalText_known isText
      · rw [← extended.definitions name text isName,Module.definitions,Module.definitions,
          extended.strip isName,isString]
        change ((module.insert (.getElementPtr pointer)).1.users
          ((module.insert (.getElementPtr pointer)).1.stripPointerCasts module.kinds.length)).flatMap _ = _
        rw [(nameString_of_getName named).2.1,Module.nameString,isNew,Module.nameString,isKind]
    | globalString _ | constantGetElementPtr _ | constantNull | argument =>
      rw [isKind] at isInstruction
      exact absurd isInstruction (by simp [Kind.isInstruction])
    | _ =>
      simp only [Module.nameString,isKind,Module.globalText] at isText
      exact absurd isText (by simp)
  · exact ⟨.refl module,wellFormed,isName,rfl⟩

theorem creatable_integer {type : IntegerType} (creatable : type ≠ .u2 ∧ type ≠ .boolean) :
    createIntegerTypeInst type = some (.integerType type) := by
  cases type with
  | u2 => exact absurd rfl creatable.1
  | boolean => exact absurd rfl creatable.2
  | _ => rfl

theorem NonRecursive.extended {name : String} (wellFormed : WellFormed module)
    (nonRecursive : NonRecursive module name) (extended : Extended module middle) :
    NonRecursive middle name := by
  intro value operand fieldTypes isDefinition isName
  have known := extended.old value operand fieldTypes isDefinition
  rw [extended.kinds value known] at isDefinition
  obtain ⟨text,isText⟩ := wellFormed.named isDefinition List.mem_cons_self
  obtain rfl := Option.some.inj ((extended.getName isText).symm.trans isName)
  obtain ⟨depth,whole⟩ := nonRecursive value operand fieldTypes isDefinition isText
  exact ⟨depth,by rw [extended.complete wellFormed depth known]; exact whole⟩

theorem Built.extended (wellFormed : WellFormed module) (extended : Extended module middle)
    (built : Built module state type) : Built middle state type := by
  induction type with
  | struct name => exact ⟨built.1,built.2.extended wellFormed extended⟩
  | reference _ ih | sequence _ ih => exact ih built
  | assocArray _ _ ihKey ihValue => exact ⟨ihKey built.1,ihValue built.2⟩
  | integer _ | float | double | pointer => exact trivial
  | fieldArray _ _ | staticTensor _ _ | tensor _ _ => exact built.elim

/-- The builder makes a complete type instruction for the type. -/
theorem created_of_creatable (wellFormed : WellFormed module) (sound : Sound module state)
    (built : Built module state type) (isCreatable : creatable type) :
    ∃ after value,module.createTypeInst state type = some (after,value) ∧
      Created module after value type := by
  induction type generalizing module with
  | integer integer =>
    have known := Bool.and_eq_true_iff.mp isCreatable
    have isKind := creatable_integer ⟨bne_iff_ne.mp known.1,bne_iff_ne.mp known.2⟩
    refine ⟨_,_,by rw [Module.createTypeInst,isKind]; rfl,?_⟩
    apply created_leaf wellFormed rfl rfl rfl rfl
    · exact fun _ _ isKind => by rw [shapeOf,isKind]
    · exact fun _ _ isKind => by rw [complete,isKind]
  | float | double | pointer =>
    refine ⟨_,_,rfl,?_⟩
    apply created_leaf wellFormed rfl rfl rfl rfl
    · exact fun _ _ isKind => by rw [shapeOf,isKind]
    · exact fun _ _ isKind => by rw [complete,isKind]
  | reference inner ih =>
    obtain ⟨after,value,made,created⟩ := ih wellFormed sound built isCreatable
    refine ⟨_,_,by rw [Module.createTypeInst,made]; rfl,?_⟩
    apply created.part rfl rfl rfl rfl
    · exact fun _ _ _ isKind => by rw [shapeOf,isKind]
    · exact fun _ _ _ isKind => by rw [complete,isKind]
  | sequence inner ih =>
    obtain ⟨after,value,made,created⟩ := ih wellFormed sound built isCreatable
    refine ⟨_,_,by rw [Module.createTypeInst,made]; rfl,?_⟩
    apply created.part rfl rfl rfl rfl
    · exact fun _ _ _ isKind => by rw [shapeOf,isKind]
    · exact fun _ _ _ isKind => by rw [complete,isKind]
  | struct name =>
    obtain ⟨known,nonRecursive⟩ := built
    obtain ⟨struct,found⟩ := Option.isSome_iff_exists.mp known
    have same : struct.name = name := by simpa using List.find?_some found
    obtain ⟨operand,fieldTypes,isDefinition,isName⟩ :=
      sound.defined struct (List.mem_of_find?_eq_some found)
    rw [same] at isName
    obtain ⟨extended,wellFormed',isName',isDefinitions⟩ := cloneName_spec wellFormed isName
    have nonempty := List.ne_nil_of_mem (definition_mem isDefinition isName)
    obtain ⟨definition,first⟩ := Option.ne_none_iff_exists'.mp (mt List.head?_eq_none_iff.mp nonempty)
    obtain ⟨isFirst,isText⟩ := mem_definitions wellFormed (List.mem_of_mem_head? first)
    obtain ⟨text,isString,_⟩ := nameString_of_getName isName
    obtain ⟨depth,whole⟩ := nonRecursive definition.value definition.name definition.fieldTypes isFirst
      (isText name (by rw [isString]; exact text))
    have operandFound : module.getNameOperand struct.definition = some operand := by
      rw [Module.getNameOperand,isDefinition]
    have made : module.createTypeInst state (.struct name) =
        some ((module.cloneName operand).1.insert (.structType (module.cloneName operand).2)) := by
      rw [Module.createTypeInst,found,Option.bind_eq_bind,Option.bind_some,operandFound]
      rfl
    refine ⟨_,_,made,?_⟩
    apply created_struct extended wellFormed' isName' (isDefinitions ▸ first)
    exact ⟨depth,by rw [extended.complete wellFormed depth (kind_known isFirst (by simp))]; exact whole⟩
  | assocArray keyType valueType ihKey ihValue =>
    obtain ⟨keyCreatable,valueCreatable⟩ := Bool.and_eq_true_iff.mp isCreatable
    obtain ⟨middle,key,madeKey,createdKey⟩ := ihKey wellFormed sound built.1 keyCreatable
    obtain ⟨after,value,madeValue,createdValue⟩ := ihValue createdKey.wellFormed
      (sound.grown wellFormed createdKey.extended.toGrown)
      (built.2.extended wellFormed createdKey.extended) valueCreatable
    have made : module.createTypeInst state (.assocArray keyType valueType) =
        some (after.insert (.assocArrayType key value)) := by
      rw [Module.createTypeInst,madeKey,Option.bind_eq_bind,Option.bind_some,madeValue]
      rfl
    refine ⟨_,_,made,?_⟩
    exact createdKey.assocArray createdValue
  | fieldArray _ _ | staticTensor _ _ | tensor _ _ => exact built.elim

end Create

theorem createTypeInst_none {state : State} {type : Shape} (missing : creatable type = false)
    (module : Module) : module.createTypeInst state type = none := by
  induction type generalizing module with
  | integer integer =>
    cases integer with
    | u2 | boolean => rfl
    | _ => exact absurd missing (by simp [creatable])
  | float | double | pointer | struct _ => exact absurd missing (by simp [creatable])
  | reference _ ih | sequence _ ih =>
    rw [Module.createTypeInst,ih missing]
    rfl
  | fieldArray _ _ ih => exact ih missing module
  | staticTensor _ _ | tensor _ _ => rfl
  | assocArray _ _ ihKey ihValue =>
    rw [Module.createTypeInst]
    rcases Bool.and_eq_false_iff.mp missing with missing | missing
    · rw [ihKey missing]
      rfl
    · apply Option.bind_eq_none_iff.mpr
      intro key _
      rw [ihValue missing]
      rfl

theorem Reached.sound {module : Module} {state : State} (reached : Reached module state) :
    WellFormed module ∧ Sound module state := by
  induction reached with
  | initial wellFormed => exact ⟨wellFormed,.initial _⟩
  | query _ ran ih => exact ⟨ih.1,ih.2.query ih.1 ran⟩
  | invalidate _ ih =>
    refine ⟨ih.1,?_,?_,ih.2.defined,?_⟩
    · exact fun _ _ _ found => absurd found (by simp [State.invalidate])
    · exact fun _ _ _ _ found => absurd found (by simp [State.invalidate])
    · exact fun _ found => absurd rfl found
  | insert _ kind wellFormed ih => exact ⟨wellFormed,ih.2.grown ih.1 (grown_insert _ kind)⟩

/-- A type that is built and analysed comes back just when the builder has a case for all its leaves. -/
theorem roundTrips_iff {module : Module} {state : State} (reached : Reached module state) {type : Shape}
    (built : Built module state type) : RoundTrips module state type ↔ creatable type := by
  obtain ⟨wellFormed,sound⟩ := reached.sound
  constructor
  · rintro ⟨after,value,made,_⟩
    by_contra missing
    rw [Bool.not_eq_true] at missing
    rw [createTypeInst_none missing module] at made
    exact absurd made (by simp)
  · intro isCreatable
    obtain ⟨after,value,made,created⟩ := created_of_creatable wellFormed sound built isCreatable
    obtain ⟨depth,found,whole⟩ := created.whole
    refine ⟨after,value,made,depth,fun fuel enough => ?_⟩
    have sound := (sound.grown wellFormed created.extended.toGrown).clear
    have analyses := analyses_getTypeHelper created.wellFormed (.inl enough : depth ≤ fuel ∨ False)
    obtain ⟨result,last,ran,isFound⟩ :=
      (analyses value state.clear whole sound (.clear after depth state)).returns
    refine ⟨last,?_⟩
    change getTypeHelper after fuel value state.clear = _
    rw [ran]
    cases result with
    | none => exact (isFound.typed rfl).elim
    | some result => rw [isFound.type result rfl depth type found]

/-- A module with the definition of a struct type. -/
def pairModule : Module where
  kinds := [.globalString "pair",.integerType .u64,.defineStructType 0 [1,1]]
  users value := if value = 0 ∨ value = 1 then [2] else []
  linked := by
    intro value user
    rcases user with _ | _ | _ | user
    · split <;> simp [Kind.operands]
    · split <;> simp [Kind.operands]
    · split <;> simp_all [Kind.operands]
    · split <;> simp

theorem pairModule_kind (value : Value) : pairModule.kind (value + 3) = .other := by
  rw [Module.kind,List.getElem?_eq_none (Nat.le_add_left 3 value)]
  rfl

theorem pairModule_wellFormed : WellFormed pairModule := wellFormed_of_check (by decide)

def pairState : State :=
  match getType pairModule 2 2 .initial with
  | .returned _ state => state
  | _ => .initial

theorem pair_roundTrips : RoundTrips pairModule pairState (.sequence (.reference (.struct "pair"))) ↔
    creatable (.sequence (.reference (.struct "pair"))) := by
  have ran : getType pairModule 2 2 .initial = .returned (some (.struct "pair")) pairState := rfl
  apply roundTrips_iff (.query (.initial pairModule_wellFormed) ran)
  refine ⟨rfl,fun value operand fieldTypes isDefinition _ => ?_⟩
  match value with
  | 0 | 1 => exact absurd isDefinition (by simp [Module.kind,pairModule])
  | 2 => exact ⟨2,rfl⟩
  | value + 3 =>
    rw [pairModule_kind] at isDefinition
    exact absurd isDefinition (by simp)

/-- The builder aborts at the type of truth values, which has width one and is not signed. -/
theorem boolean_not_roundTrips : Reached pairModule .initial ∧
    Built pairModule .initial (.sequence (.integer .boolean)) ∧
    ¬ RoundTrips pairModule .initial (.sequence (.integer .boolean)) := by
  refine ⟨.initial pairModule_wellFormed,trivial,?_⟩
  rintro ⟨after,value,made,_⟩
  rw [createTypeInst_none rfl pairModule] at made
  exact absurd made (by simp)

end Memoir.TypeAnalysis
