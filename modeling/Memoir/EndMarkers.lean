import Memoir.Ir

/-! SSA destruction of the end marker: each of its uses becomes a use of the size of a collection. The
list of uses is the one that the loop over it edits. -/
namespace Memoir.EndMarkers

structure Use where
  user : Nat
  operandNo : Nat
  deriving DecidableEq

inductive Used
  | endInst
  | size (index : Nat)
  deriving DecidableEq

/-- The first use in the list of a value is its head; uses of other values are left out. -/
structure UseLists where
  value : Use → Option Used
  uses : Used → List Use

namespace UseLists

/-- Takes the use out of the list that it is in and puts it at the head of the list of the value. -/
def set (use : Use) (value : Used) (lists : UseLists) : UseLists where
  value := fun other => if other = use then some value else lists.value other
  uses := fun other =>
    if other = value then use :: (lists.uses other).erase use else (lists.uses other).erase use

end UseLists

def after (use : Use) : List Use → Option Use
  | [] => none
  | head :: rest => if head = use then rest.head? else after use rest

def UseLists.next (lists : UseLists) (use : Use) : Option Use :=
  (lists.value use).bind fun value => after use (lists.uses value)

/-- Whose size replaces the marker; no other user is supported. -/
def contextualizeEnd (use : Use) : Inst → Option Value
  | .seqInsert _ base _ | .seqInsertSeq _ base _ | .assocInsert base _ => some base
  | .seqRemove base _ _ | .assocRemove base _ => some base
  | .seqCopy copied _ _ => some copied
  | .seqSwap fromCollection _ _ toCollection _ =>
    some (if use.operandNo > 3 then toCollection else fromCollection)
  | .seqSwapWithin fromCollection _ _ _ => some fromCollection
  | _ => none

structure State where
  lists : UseLists
  sizes : List (Use × Value)

section
variable (users : Nat → Inst)

def visitUses : Nat → Option Use → State → Option State
  | _,none,state => some state
  | 0,some _,_ => none
  | fuel + 1,some use,state =>
    match contextualizeEnd use (users use.user) with
    | none => none
    | some collection =>
      let lists := state.lists.set use (.size state.sizes.length)
      visitUses fuel (lists.next use) ⟨lists,state.sizes ++ [(use,collection)]⟩

def visitEndInst (fuel : Nat) (lists : UseLists) : Option State :=
  visitUses users fuel (lists.uses .endInst).head? ⟨lists,[]⟩

end

def indexed : Inst → Nat → Option Value
  | .seqInsert _ base _,2 | .seqInsertSeq _ base _,2 => some base
  | .assocInsert base _,1 | .assocRemove base _,1 => some base
  | .seqRemove base _ _,1 | .seqRemove base _ _,2 => some base
  | .seqCopy copied _ _,1 | .seqCopy copied _ _,2 => some copied
  | .seqSwap fromCollection _ _ _ _,1 | .seqSwap fromCollection _ _ _ _,2 => some fromCollection
  | .seqSwap _ _ _ toCollection _,4 => some toCollection
  | .seqSwapWithin collection _ _ _,1 | .seqSwapWithin collection _ _ _,2
  | .seqSwapWithin collection _ _ _,3 => some collection
  | _,_ => none

/-- An end marker whose uses are indices of inserts, removes, copies and swaps, in any order. -/
structure Marker (users : Nat → Inst) where
  lists : UseLists
  distinct : (lists.uses .endInst).Nodup
  value : ∀ use,use ∈ lists.uses .endInst ↔ lists.value use = some .endInst
  sizes : ∀ index,lists.uses (.size index) = []
  indices : ∀ use ∈ lists.uses .endInst,indexed (users use.user) use.operandNo ≠ none

variable {users : Nat → Inst}

def Resolved (marker : Marker users) (state : State) : Prop :=
  state.lists.uses .endInst = [] ∧
    ∀ use ∈ marker.lists.uses .endInst,∃ index collection,
      state.lists.value use = some (.size index) ∧ state.sizes[index]? = some (use,collection) ∧
        indexed (users use.user) use.operandNo = some collection

theorem contextualizeEnd_indexed {inst : Inst} {use : Use} {collection : Value}
    (index : indexed inst use.operandNo = some collection) :
    contextualizeEnd use inst = some collection := by
  unfold indexed at index
  split at index <;> simp_all [contextualizeEnd]

/-- The loop ends after the first use: none follows it in the list of the new size instruction. -/
theorem visitEndInst_spec (marker : Marker users) {use : Use} {rest : List Use}
    (uses : marker.lists.uses .endInst = use :: rest) (fuel : Nat) :
    ∃ collection,indexed (users use.user) use.operandNo = some collection ∧
      visitEndInst users (fuel + 1) marker.lists =
        some ⟨marker.lists.set use (.size 0),[(use,collection)]⟩ := by
  have member : use ∈ marker.lists.uses .endInst := uses ▸ List.mem_cons_self
  obtain ⟨collection,index⟩ := Option.ne_none_iff_exists'.mp (marker.indices use member)
  refine ⟨collection,index,?_⟩
  have last : (marker.lists.set use (.size 0)).next use = none := by
    simp [UseLists.next,UseLists.set,marker.sizes,after]
  rw [visitEndInst,uses,List.head?_cons,visitUses,contextualizeEnd_indexed index]
  change visitUses users fuel ((marker.lists.set use (.size 0)).next use) _ = _
  rw [last,visitUses]
  rfl

theorem uses_left (marker : Marker users) {fuel : Nat} {state : State}
    (ran : visitEndInst users fuel marker.lists = some state) :
    state.lists.uses .endInst = (marker.lists.uses .endInst).tail := by
  rcases uses : marker.lists.uses .endInst with _ | ⟨use,rest⟩
  · rw [visitEndInst,uses,List.head?_nil,visitUses] at ran
    obtain rfl := Option.some.inj ran
    exact uses
  · cases fuel with
    | zero => exact absurd ran (by simp [visitEndInst,uses,visitUses])
    | succ fuel =>
      obtain ⟨collection,_,same⟩ := visitEndInst_spec marker uses fuel
      obtain rfl := Option.some.inj (same.symm.trans ran)
      simp [UseLists.set,uses]

/-- The marker is resolved when it has at most one use. -/
theorem resolved_iff (marker : Marker users) :
    (∃ fuel state,visitEndInst users fuel marker.lists = some state ∧ Resolved marker state) ↔
      (marker.lists.uses .endInst).length ≤ 1 := by
  constructor
  · rintro ⟨fuel,state,ran,resolved⟩
    have tail := (uses_left marker ran).symm.trans resolved.1
    have length := congrArg List.length tail
    rw [List.length_tail,List.length_nil] at length
    omega
  · intro one
    rcases uses : marker.lists.uses .endInst with _ | ⟨use,rest⟩
    · refine ⟨0,⟨marker.lists,[]⟩,?_,uses,?_⟩
      · rw [visitEndInst,uses,List.head?_nil,visitUses]
      · rw [uses]
        exact fun use member => absurd member List.not_mem_nil
    · obtain ⟨collection,index,same⟩ := visitEndInst_spec marker uses 0
      have tail := uses_left marker same
      rw [uses,List.length_cons] at one
      obtain rfl := List.eq_nil_of_length_eq_zero (Nat.le_zero.mp (Nat.le_of_succ_le_succ one))
      refine ⟨1,_,same,by rw [tail,uses,List.tail_cons],?_⟩
      rw [uses]
      intro other member
      obtain rfl := List.mem_singleton.mp member
      exact ⟨0,collection,if_pos rfl,rfl,index⟩

/-- An insert and a remove at the end of one sequence. -/
def insertAndRemove : Nat → Inst
  | 0 => .seqInsert (.scalar (.constant 7)) (.name (.argument 0)) (.name (.inst 0 0))
  | _ => .seqRemove (.name (.argument 0)) (.constant 0) (.name (.inst 0 0))

def sharedUses : List Use := [⟨1,2⟩,⟨0,2⟩]

def sharedLists : UseLists where
  value use := if use ∈ sharedUses then some .endInst else none
  uses
    | .endInst => sharedUses
    | .size _ => []

theorem shared_value (use : Use) :
    use ∈ sharedLists.uses .endInst ↔ sharedLists.value use = some .endInst := by
  change use ∈ sharedUses ↔ (if use ∈ sharedUses then some Used.endInst else none) = some .endInst
  split_ifs with member
  · exact iff_of_true member rfl
  · exact iff_of_false member (by simp)

theorem shared_distinct : (sharedLists.uses .endInst).Nodup := by decide

theorem shared_indices : ∀ use ∈ sharedLists.uses .endInst,
    indexed (insertAndRemove use.user) use.operandNo ≠ none := by
  intro use member
  rcases List.mem_cons.mp member with rfl | member
  · simp [insertAndRemove,indexed]
  · obtain rfl := List.mem_singleton.mp member
    simp [insertAndRemove,indexed]

def shared : Marker insertAndRemove where
  lists := sharedLists
  distinct := shared_distinct
  value := shared_value
  sizes _ := rfl
  indices := shared_indices

theorem shared_not_resolved : ¬ ∃ fuel state,
    visitEndInst insertAndRemove fuel shared.lists = some state ∧ Resolved shared state := by
  rintro ⟨fuel,state,ran,resolved⟩
  have tail := (uses_left shared ran).symm.trans resolved.1
  exact absurd tail (by decide)

end Memoir.EndMarkers
