import Memoir.TypeLayout
import Mathlib.Data.Fintype.Card
import Mathlib.Data.Fintype.EquivFin
import Mathlib.Logic.Relation
import Mathlib.Logic.Function.Basic

/-! The type converter with its memo table, on types whose struct types are named and may be recursive.
A type enters the table when its parts have been visited. -/
namespace Memoir.TypeConverter
open TypeLayout

/-- The types over `n` struct types, which are known by their numbers. -/
inductive NamedType (n : Nat)
  | integer (type : IntegerType)
  | float
  | double
  | pointer
  | reference (referenced : NamedType n)
  | struct (index : Fin n)
  | fieldArray (index : Fin n) (field : Nat)
  | staticTensor (element : NamedType n) (dimensions : List Nat)
  | tensor (element : NamedType n) (numDimensions : Nat)
  | assocArray (key value : NamedType n)
  | sequence (element : NamedType n)
  deriving DecidableEq

structure StructDefinition (n : Nat) where
  name : String
  fields : List (NamedType n)

abbrev Definitions (n : Nat) := Fin n → StructDefinition n

abbrev Memo (n : Nat) := NamedType n → Option Layout

variable {n : Nat}

def memoize (type : NamedType n) (result : Layout × Memo n) : Layout × Memo n :=
  (result.1,Function.update result.2 type (some result.1))

def checkMemoized (type : NamedType n) (memo : Memo n) (made : Option (Layout × Memo n)) :
    Option (Layout × Memo n) :=
  match memo type with
  | some layout => some (layout,memo)
  | none => made.map (memoize type)

def visitFieldTypes (visit : NamedType n → Memo n → Option (Layout × Memo n)) :
    List (NamedType n) → Memo n → Option (List Layout × Memo n)
  | [],memo => some ([],memo)
  | type :: types,memo =>
    (visit type memo).bind fun first =>
      (visitFieldTypes visit types first.2).map fun rest => (first.1 :: rest.1,rest.2)

/-- There is no result where a type is not implemented, or where the recursion does not end. -/
def visit (definitions : Definitions n) : Nat → NamedType n → Memo n → Option (Layout × Memo n)
  | 0,_,_ => none
  | fuel + 1,type,memo =>
    match type with
    | .integer integer => checkMemoized type memo (some (visitIntegerType integer,memo))
    | .float => checkMemoized type memo (some (⟨.float,[],[]⟩,memo))
    | .double => checkMemoized type memo (some (⟨.double,[],[]⟩,memo))
    | .pointer => checkMemoized type memo (some (⟨.ptr (.int 8),[],[]⟩,memo))
    | .reference referenced =>
      checkMemoized type memo <| (visit definitions fuel referenced memo).map fun part =>
        (⟨.ptr part.1.llvmType,[],[]⟩,part.2)
    | .staticTensor element dimensions =>
      checkMemoized type memo <| (visit definitions fuel element memo).bind fun part =>
        match dimensions with
        | [length] => some (⟨.array length part.1.llvmType,[],[]⟩,part.2)
        | _ => none
    | .struct index =>
      checkMemoized type memo <|
        (visitFieldTypes (visit definitions fuel) (definitions index).fields memo).map fun parts =>
          (structLayout (definitions index).name parts.1,parts.2)
    | .tensor _ _ | .fieldArray _ _ | .assocArray _ _ | .sequence _ => none

inductive Memoized (definitions : Definitions n) : Memo n → Prop
  | empty : Memoized definitions fun _ => none
  | convert {fuel : Nat} {type : NamedType n} {memo : Memo n} {result : Layout × Memo n}
    (memoized : Memoized definitions memo) (ran : visit definitions fuel type memo = some result) :
    Memoized definitions result.2

def lowered : NamedType n → Bool
  | .integer _ | .float | .double | .pointer | .struct _ => true
  | .reference referenced => lowered referenced
  | .staticTensor element dimensions => dimensions.length == 1 && lowered element
  | .tensor _ _ | .fieldArray _ _ | .assocArray _ _ | .sequence _ => false

def structs : NamedType n → List (Fin n)
  | .integer _ | .float | .double | .pointer => []
  | .struct index | .fieldArray index _ => [index]
  | .reference part | .staticTensor part _ | .tensor part _ | .sequence part => structs part
  | .assocArray key value => structs key ++ structs value

def Uses (definitions : Definitions n) (index other : Fin n) : Prop :=
  ∃ field ∈ (definitions index).fields,other ∈ structs field

def Reached (definitions : Definitions n) (type : NamedType n) (index : Fin n) : Prop :=
  ∃ first ∈ structs type,Relation.ReflTransGen (Uses definitions) first index

/-- All types reached are implemented, and no struct type reached is reached from itself. -/
def Convertible (definitions : Definitions n) (type : NamedType n) : Prop :=
  lowered type ∧ ∀ index,Reached definitions type index →
    (∀ field ∈ (definitions index).fields,lowered field) ∧
      ¬ Relation.TransGen (Uses definitions) index index

variable {definitions : Definitions n}

section Sound
variable {memo : Memo n} {type : NamedType n} {result : Layout × Memo n}

def Sound (definitions : Definitions n) (memo : Memo n) : Prop :=
  ∀ type layout,memo type = some layout → Convertible definitions type

theorem sound_memoize (sound : Sound definitions result.2) (convertible : Convertible definitions type) :
    Sound definitions (memoize type result).2 := by
  intro other layout found
  by_cases same : other = type
  · exact same ▸ convertible
  · apply sound other layout
    exact (Function.update_of_ne same _ _).symm.trans found

theorem convertible_checkMemoized {made : Option (Layout × Memo n)} (sound : Sound definitions memo)
    (inner : ∀ part,made = some part → Convertible definitions type ∧ Sound definitions part.2)
    (ran : checkMemoized type memo made = some result) :
    Convertible definitions type ∧ Sound definitions result.2 := by
  unfold checkMemoized at ran
  rcases found : memo type with _ | layout
  · rw [found] at ran
    obtain ⟨part,made,rfl⟩ := Option.map_eq_some_iff.mp ran
    obtain ⟨convertible,sound'⟩ := inner part made
    exact ⟨convertible,sound_memoize sound' convertible⟩
  · rw [found] at ran
    obtain rfl := Option.some.inj ran
    exact ⟨sound type layout found,sound⟩

theorem convertible_fields {run : NamedType n → Memo n → Option (Layout × Memo n)}
    (each : ∀ type memo result,Sound definitions memo → run type memo = some result →
      Convertible definitions type ∧ Sound definitions result.2)
    {types : List (NamedType n)} {parts : List Layout × Memo n} (sound : Sound definitions memo)
    (ran : visitFieldTypes run types memo = some parts) :
    (∀ type ∈ types,Convertible definitions type) ∧ Sound definitions parts.2 := by
  induction types generalizing memo parts with
  | nil =>
    obtain rfl := Option.some.inj ran
    exact ⟨by simp,sound⟩
  | cons type types ih =>
    rw [visitFieldTypes] at ran
    obtain ⟨first,ran',ran⟩ := Option.bind_eq_some_iff.mp ran
    obtain ⟨rest,ran'',rfl⟩ := Option.map_eq_some_iff.mp ran
    obtain ⟨convertible,sound'⟩ := each type memo first sound ran'
    obtain ⟨all,sound''⟩ := ih sound' ran''
    exact ⟨List.forall_mem_cons.mpr ⟨convertible,all⟩,sound''⟩

theorem convertible_leaf (implemented : lowered type) (none : structs type = []) :
    Convertible definitions type := by
  refine ⟨implemented,?_⟩
  rintro index ⟨first,member,_⟩
  rw [none] at member
  exact absurd member List.not_mem_nil

/-- A struct type does not use itself when its fields reach no struct type that does. -/
theorem convertible_struct {index : Fin n}
    (all : ∀ field ∈ (definitions index).fields,Convertible definitions field) :
    Convertible definitions (.struct index) := by
  have below : ∀ other,Relation.TransGen (Uses definitions) index other →
      ∃ field ∈ (definitions index).fields,Reached definitions field other := by
    intro other path
    obtain ⟨next,⟨field,member,used⟩,path⟩ := Relation.TransGen.head'_iff.mp path
    exact ⟨field,member,next,used,path⟩
  refine ⟨rfl,?_⟩
  rintro other ⟨first,member,path⟩
  obtain rfl := List.mem_singleton.mp member
  rcases Relation.reflTransGen_iff_eq_or_transGen.mp path with rfl | path
  · refine ⟨fun field member => (all field member).1,fun loop => ?_⟩
    obtain ⟨field,member,reached⟩ := below other loop
    exact ((all field member).2 other reached).2 loop
  · obtain ⟨field,member,reached⟩ := below other path
    exact (all field member).2 other reached

theorem convertible_of_visit {fuel : Nat} (sound : Sound definitions memo)
    (ran : visit definitions fuel type memo = some result) :
    Convertible definitions type ∧ Sound definitions result.2 := by
  induction fuel generalizing type memo result with
  | zero => exact absurd ran (by simp [visit])
  | succ fuel ih =>
    have leaf : ∀ layout,lowered type → structs type = [] →
        checkMemoized type memo (some (layout,memo)) = some result →
        Convertible definitions type ∧ Sound definitions result.2 := by
      intro layout implemented none ran
      apply convertible_checkMemoized sound _ ran
      intro part made
      obtain rfl := Option.some.inj made
      exact ⟨convertible_leaf implemented none,sound⟩
    cases type with
    | integer integer => exact leaf _ rfl rfl ran
    | float => exact leaf _ rfl rfl ran
    | double => exact leaf _ rfl rfl ran
    | pointer => exact leaf _ rfl rfl ran
    | reference referenced =>
      apply convertible_checkMemoized sound _ ran
      intro part made
      obtain ⟨inner,ran,rfl⟩ := Option.map_eq_some_iff.mp made
      obtain ⟨convertible,sound'⟩ := ih sound ran
      exact ⟨⟨convertible.1,convertible.2⟩,sound'⟩
    | struct index =>
      apply convertible_checkMemoized sound _ ran
      intro part made
      obtain ⟨parts,ran,rfl⟩ := Option.map_eq_some_iff.mp made
      obtain ⟨all,sound'⟩ := convertible_fields (fun _ _ _ => ih) sound ran
      exact ⟨convertible_struct all,sound'⟩
    | staticTensor element dimensions =>
      apply convertible_checkMemoized sound _ ran
      intro part made
      obtain ⟨inner,ran,made⟩ := Option.bind_eq_some_iff.mp made
      obtain ⟨convertible,sound'⟩ := ih sound ran
      rcases dimensions with _ | ⟨length,_ | ⟨_,_⟩⟩
      · exact absurd made (by simp)
      · obtain rfl := Option.some.inj made
        exact ⟨⟨convertible.1,convertible.2⟩,sound'⟩
      · exact absurd made (by simp)
    | tensor element numDimensions => exact absurd ran (by simp [visit])
    | fieldArray index field => exact absurd ran (by simp [visit])
    | assocArray key value => exact absurd ran (by simp [visit])
    | sequence element => exact absurd ran (by simp [visit])

theorem Memoized.sound (memoized : Memoized definitions memo) : Sound definitions memo := by
  induction memoized with
  | empty => exact fun _ _ found => absurd found (by simp)
  | convert _ ran ih => exact (convertible_of_visit ih ran).2

end Sound

/-- The conversion ends with a layout, whatever the table. -/
def Ends (definitions : Definitions n) (type : NamedType n) : Prop :=
  ∃ enough,∀ fuel ≥ enough,∀ memo,∃ result,visit definitions fuel type memo = some result

section Total
variable {type : NamedType n}

theorem checkMemoized_total {memo : Memo n} {made : Option (Layout × Memo n)}
    (known : ∃ part,made = some part) : ∃ result,checkMemoized type memo made = some result := by
  obtain ⟨part,rfl⟩ := known
  unfold checkMemoized
  rcases memo type with _ | layout
  · exact ⟨_,rfl⟩
  · exact ⟨_,rfl⟩

theorem ends_fields {types : List (NamedType n)} (all : ∀ type ∈ types,Ends definitions type) :
    ∃ enough,∀ fuel ≥ enough,∀ memo,
      ∃ result,visitFieldTypes (visit definitions fuel) types memo = some result := by
  induction types with
  | nil => exact ⟨0,fun _ _ memo => ⟨([],memo),rfl⟩⟩
  | cons type types ih =>
    obtain ⟨first,ends⟩ := all type List.mem_cons_self
    obtain ⟨rest,ends'⟩ := ih fun other member => all other (List.mem_cons_of_mem type member)
    refine ⟨max first rest,fun fuel enough memo => ?_⟩
    obtain ⟨head,ran⟩ := ends fuel (Nat.le_trans (Nat.le_max_left _ _) enough) memo
    obtain ⟨tail,ran'⟩ := ends' fuel (Nat.le_trans (Nat.le_max_right _ _) enough) head.2
    exact ⟨(head.1 :: tail.1,tail.2),by rw [visitFieldTypes,ran,Option.bind_some,ran']; rfl⟩

theorem ends_succ (step : ∃ enough,∀ fuel ≥ enough,∀ memo,
      ∃ result,visit definitions (fuel + 1) type memo = some result) : Ends definitions type := by
  obtain ⟨enough,ends⟩ := step
  refine ⟨enough + 1,fun fuel above memo => ?_⟩
  obtain ⟨fuel,rfl⟩ := Nat.exists_eq_succ_of_ne_zero (Nat.ne_zero_of_lt above)
  exact ends fuel (Nat.le_of_succ_le_succ above) memo

theorem ends_of_structs (implemented : lowered type)
    (structs_end : ∀ index ∈ structs type,Ends definitions (.struct index)) :
    Ends definitions type := by
  induction type with
  | integer integer =>
    apply ends_succ
    exact ⟨0,fun fuel _ memo => checkMemoized_total ⟨_,rfl⟩⟩
  | float =>
    apply ends_succ
    exact ⟨0,fun fuel _ memo => checkMemoized_total ⟨_,rfl⟩⟩
  | double =>
    apply ends_succ
    exact ⟨0,fun fuel _ memo => checkMemoized_total ⟨_,rfl⟩⟩
  | pointer =>
    apply ends_succ
    exact ⟨0,fun fuel _ memo => checkMemoized_total ⟨_,rfl⟩⟩
  | reference referenced ih =>
    obtain ⟨enough,ends⟩ := ih implemented structs_end
    apply ends_succ
    refine ⟨enough,fun fuel above memo => checkMemoized_total ?_⟩
    obtain ⟨part,ran⟩ := ends fuel above memo
    exact ⟨_,by rw [ran]; rfl⟩
  | struct index => exact structs_end index List.mem_cons_self
  | staticTensor element dimensions ih =>
    obtain ⟨one,implemented⟩ := Bool.and_eq_true_iff.mp implemented
    obtain ⟨length,rfl⟩ := List.length_eq_one_iff.mp (beq_iff_eq.mp one)
    obtain ⟨enough,ends⟩ := ih implemented structs_end
    apply ends_succ
    refine ⟨enough,fun fuel above memo => checkMemoized_total ?_⟩
    obtain ⟨part,ran⟩ := ends fuel above memo
    exact ⟨_,by rw [ran]; rfl⟩
  | tensor element numDimensions ih => exact absurd implemented (by simp [lowered])
  | fieldArray index field => exact absurd implemented (by simp [lowered])
  | assocArray key value ihKey ihValue => exact absurd implemented (by simp [lowered])
  | sequence element ih => exact absurd implemented (by simp [lowered])

/-- By induction along the uses between the struct types reached, of which there are finitely many. -/
theorem struct_ends (convertible : Convertible definitions type) {index : Fin n}
    (reached : Reached definitions type index) : Ends definitions (.struct index) := by
  let Below (other index : Fin n) : Prop :=
    Relation.TransGen (Uses definitions) index other ∧ Reached definitions type index
  have wellFounded : WellFounded Below := by
    have irrefl : Std.Irrefl Below := ⟨fun index loop => (convertible.2 index loop.2).2 loop.1⟩
    have trans : IsTrans (Fin n) Below := ⟨fun _ _ _ first second => ⟨second.1.trans first.1,second.2⟩⟩
    exact Finite.wellFounded_of_trans_of_irrefl Below
  induction index using wellFounded.induction with
  | _ index ih =>
    have fields : ∀ field ∈ (definitions index).fields,Ends definitions field := by
      intro field member
      apply ends_of_structs ((convertible.2 index reached).1 field member)
      intro other used
      have uses : Uses definitions index other := ⟨field,member,used⟩
      obtain ⟨first,mention,path⟩ := reached
      exact ih other ⟨.single uses,first,mention,path⟩ ⟨first,mention,path.tail uses⟩
    obtain ⟨enough,ends⟩ := ends_fields fields
    apply ends_succ
    refine ⟨enough,fun fuel above memo => checkMemoized_total ?_⟩
    obtain ⟨parts,ran⟩ := ends fuel above memo
    exact ⟨_,by rw [ran]; rfl⟩

end Total

/-- After any conversions, a conversion ends with a layout just when all types reached are implemented
and no struct type among them reaches itself. -/
theorem converts_iff {memo : Memo n} (memoized : Memoized definitions memo) (type : NamedType n) :
    (∃ fuel result,visit definitions fuel type memo = some result) ↔ Convertible definitions type := by
  constructor
  · rintro ⟨fuel,result,ran⟩
    exact (convertible_of_visit memoized.sound ran).1
  · intro convertible
    have ends := ends_of_structs convertible.1 fun index mention =>
      struct_ends convertible ⟨index,mention,.refl⟩
    obtain ⟨enough,ends⟩ := ends
    exact ⟨enough,ends enough (Nat.le_refl enough) memo⟩

/-- A point, and a shape that refers to one and holds three. -/
def shapes : Definitions 2
  | 0 => ⟨"point",[.double,.double]⟩
  | 1 => ⟨"shape",[.reference (.struct 0),.staticTensor (.struct 0) [3],.integer .u64]⟩

theorem shapes_uses {index other : Fin 2} (uses : Uses shapes index other) : other < index := by
  obtain ⟨field,member,used⟩ := uses
  match index with
  | 0 =>
    simp only [shapes,List.mem_cons,List.not_mem_nil,or_false,or_self] at member
    subst member
    exact absurd used List.not_mem_nil
  | 1 =>
    simp only [shapes,List.mem_cons,List.not_mem_nil,or_false] at member
    rcases member with rfl | rfl | rfl
    · exact List.mem_singleton.mp used ▸ by decide
    · exact List.mem_singleton.mp used ▸ by decide
    · exact absurd used List.not_mem_nil

theorem shapes_convertible : Convertible shapes (.reference (.struct 1)) := by
  refine ⟨rfl,fun index _ => ⟨?_,fun loop => ?_⟩⟩
  · match index with
    | 0 | 1 => decide
  · have above : ∀ other,Relation.TransGen (Uses shapes) index other → other < index := by
      intro other path
      induction path with
      | single uses => exact shapes_uses uses
      | tail _ uses ih => exact (shapes_uses uses).trans ih
    exact lt_irrefl _ (above index loop)

/-- The points are in the table already. -/
theorem shape_converts : ∃ point,visit shapes 2 (.struct 0) (fun _ => none) = some point ∧
    ∃ fuel result,visit shapes fuel (.reference (.struct 1)) point.2 = some result := by
  obtain ⟨point,ran⟩ : ∃ point,visit shapes 2 (.struct 0) (fun _ => none) = some point := ⟨_,rfl⟩
  exact ⟨point,ran,(converts_iff (.convert .empty ran) (.reference (.struct 1))).mpr shapes_convertible⟩

/-- A list node: a value and a reference to the next node. -/
def listNode : Definitions 1 := fun _ => ⟨"node",[.integer .u64,.reference (.struct 0)]⟩

theorem listNode_not_converted :
    ¬ ∃ fuel result,visit listNode fuel (.struct 0) (fun _ => none) = some result := by
  rintro ⟨fuel,result,ran⟩
  obtain ⟨_,convertible⟩ := (convertible_of_visit Memoized.empty.sound ran).1
  have loop : Uses listNode 0 0 := ⟨.reference (.struct 0),by decide,by decide⟩
  exact (convertible 0 ⟨0,by decide,.refl⟩).2 (.single loop)

end Memoir.TypeConverter
