import Memoir.PathWalk

/-! Field elision: the arrays that replace fields are passed along the call graph, from the entry
function, which allocates them, to the functions that access the fields. -/
namespace Memoir
namespace FieldElision
open PathWalk

inductive AccessKind
  | structRead | structWrite | structGet
  deriving DecidableEq

structure Access (StructType : Type) where
  kind : AccessKind
  structType : StructType
  fieldIndex : Nat

structure Module (Function StructType : Type) where
  functions : List Function
  main : Function
  /-- A memoir function, or one without a body. -/
  declared : Function → Bool
  /-- The functions that are called, in the order of the calls; `none` where a call is indirect. -/
  calls : Function → List (Option Function)
  accesses : Function → List (Access StructType)
  /-- Other memoir accesses that use a struct value, with the field index that is read for them. -/
  otherUses : Function → List (StructType × Nat)
  /-- The candidates of each struct type, groups of fields. -/
  fieldsToElide : List (StructType × List (List Nat))
  main_function : main ∈ functions
  main_body : declared main = false
  calls_functions : ∀ function ∈ functions, ∀ callee, some callee ∈ calls function → callee ∈ functions
  no_body : ∀ function, declared function = true →
    calls function = [] ∧ accesses function = [] ∧ otherUses function = []
  /-- Groups of several fields are rejected. -/
  single : ∀ elided ∈ fieldsToElide, ∀ candidate ∈ elided.2, candidate.length = 1

section
variable {Function StructType : Type} [DecidableEq Function] [DecidableEq StructType]

/-- The fields that the analysis has registered for a function. -/
def fieldsToAccesses (program : Module Function StructType) (function : Function) :
    List (StructType × Nat) :=
  ((program.accesses function).map (fun access => (access.structType,access.fieldIndex)) ++
    program.otherUses function).filter fun field =>
      program.fieldsToElide.any fun elided => elided.1 = field.1 ∧ elided.2 ≠ []

abbrev UsedFields (Function StructType : Type) := Gathered Function (StructType × Nat)

def traverseCallGraphNode (program : Module Function StructType) :
    Nat → List Function → Function → UsedFields Function StructType → UsedFields Function StructType
  | 0,_,_,used => used
  | depth + 1,visited,node,used =>
    let visited := node :: visited
    if program.declared node then used
    else
      let used := (program.calls node).foldl (fun used called => match called with
        | none => used
        | some callee =>
          if callee ∈ visited then used.add node (used callee)
          else
            let used := traverseCallGraphNode program depth visited callee used
            used.add node (used callee)) used
      used.add node (fieldsToAccesses program node)

/-- No path is longer than the number of functions. -/
def functionToUsedFields (program : Module Function StructType) : UsedFields Function StructType :=
  traverseCallGraphNode program program.functions.length [] program.main fun _ => []

def argumentOrder (program : Module Function StructType) (function : Function) :
    List (StructType × Nat) :=
  program.fieldsToElide.foldl (fun order elided =>
    ((functionToUsedFields program function).filter fun field => field.1 = elided.1).foldl
      (fun order field => elided.2.zipIdx.foldl (fun order candidate =>
        if field.2 ∈ candidate.1 then insertNew order (elided.1,candidate.2) else order) order)
      order) []

def Cloned (program : Module Function StructType) (function : Function) : Bool :=
  decide (functionToUsedFields program function ≠ []) && decide (function ≠ program.main) &&
    !program.declared function

inductive Value (StructType : Type)
  | allocation (structType : StructType) (candidate : Nat)
  | argument (index : Nat)

/-- The arrays of a function or, if it is cloned, of its clone, where they come behind the
parameters. Elsewhere the map yields null. -/
def elisionValues (program : Module Function StructType) (function : Function)
    (array : StructType × Nat) : Option (Value StructType) :=
  if function = program.main then
    if program.fieldsToElide.any fun elided => elided.1 = array.1 ∧ array.2 < elided.2.length then
      some (.allocation array.1 array.2)
    else none
  else if Cloned program function then
    ((argumentOrder program function).idxOf? array).map .argument
  else none

def newArguments (program : Module Function StructType) (caller callee : Function) :
    List (Option (Value StructType)) :=
  if Cloned program callee then (argumentOrder program callee).map (elisionValues program caller)
  else []

def elisionGroup (program : Module Function StructType) (access : Access StructType) : Option Nat :=
  program.fieldsToElide.findSome? fun elided =>
    if elided.1 = access.structType then
      elided.2.findIdx? fun candidate => access.fieldIndex ∈ candidate
    else none

/-- The collection that an access is moved to. A get is cast to a write, so that it stays. -/
def replacementCollection (program : Module Function StructType) (function : Function)
    (access : Access StructType) : Option (Option (Value StructType)) :=
  match access.kind with
  | .structRead | .structWrite => (elisionGroup program access).map fun candidate =>
    elisionValues program function (access.structType,candidate)
  | .structGet => none

def Reachable (program : Module Function StructType) : Function → Prop :=
  Leads program.calls program.main

structure Passes (program : Module Function StructType) : Prop where
  edges : ∀ function callee, Reachable program function → some callee ∈ program.calls function →
    program.declared callee = false →
    ∀ field ∈ functionToUsedFields program callee, field ∈ functionToUsedFields program function
  own : ∀ function, Reachable program function → ∀ access ∈ program.accesses function,
    elisionGroup program access ≠ none →
    (access.structType,access.fieldIndex) ∈ functionToUsedFields program function
  calls : ∀ function callee, Reachable program function → some callee ∈ program.calls function →
    none ∉ newArguments program function callee
  accesses : ∀ function, Reachable program function → ∀ access ∈ program.accesses function,
    replacementCollection program function access ≠ some none

variable {program : Module Function StructType} {function callee : Function}

theorem traverse_eq_walk (program : Module Function StructType) (depth : Nat) (visited : List Function)
    (node : Function) (used : UsedFields Function StructType) :
    traverseCallGraphNode program depth visited node used =
      walk program.calls (fieldsToAccesses program) depth visited node used := by
  induction depth generalizing visited node used with
  | zero => rfl
  | succ depth ih =>
    rw [traverseCallGraphNode,walk]
    split_ifs with declared
    · obtain ⟨noCalls,noAccesses,noUses⟩ := program.no_body node declared
      simp [noCalls,fieldsToAccesses,noAccesses,noUses]
    · refine congrArg (fun used => Gathered.add used node (fieldsToAccesses program node)) ?_
      refine List.foldl_ext _ _ _ fun used called _ => ?_
      cases called with
      | none => rfl
      | some callee =>
        simp only [ih]
        split_ifs <;> rfl

theorem usedFields_iff {field : StructType × Nat} : field ∈ functionToUsedFields program function ↔
    ∃ route, Carried program.calls (fieldsToAccesses program) program.main field route ∧
      Below program.calls program.main [] route function := by
  rw [functionToUsedFields,traverse_eq_walk]
  exact walk_iff program.main_function program.calls_functions

theorem own_used (reachable : Reachable program function) {field : StructType × Nat}
    (isOwn : field ∈ fieldsToAccesses program function) : field ∈ functionToUsedFields program function :=
  usedFields_iff.mpr (carried_of_own reachable isOwn)

theorem used_leads {field : StructType × Nat} (isUsed : field ∈ functionToUsedFields program function) :
    ∃ other, Leads program.calls function other ∧ field ∈ fieldsToAccesses program other := by
  obtain ⟨route,carried,below⟩ := usedFields_iff.mp isUsed
  exact carried.leads below

theorem mem_argumentOrder {array : StructType × Nat} : array ∈ argumentOrder program function ↔
    ∃ elided ∈ program.fieldsToElide, ∃ field ∈ functionToUsedFields program function,
      field.1 = elided.1 ∧ ∃ candidate ∈ elided.2.zipIdx, field.2 ∈ candidate.1 ∧
        array = (elided.1,candidate.2) := by
  have adding (elided : StructType × List (List Nat)) (field : StructType × Nat)
      (order : List (StructType × Nat)) (candidate : List Nat × Nat) (added : StructType × Nat) :
      added ∈ (if field.2 ∈ candidate.1 then insertNew order (elided.1,candidate.2) else order) ↔
        added ∈ order ∨ field.2 ∈ candidate.1 ∧ added = (elided.1,candidate.2) := by
    split_ifs with inside <;> simp [inside,mem_insertNew]
  refine (mem_foldl_adding _ (fun order elided _ => mem_foldl_adding _ (fun order field _ =>
    mem_foldl_adding _ (adding elided field) elided.2.zipIdx)
    ((functionToUsedFields program function).filter (·.1 = elided.1))) _).trans ?_
  simp only [List.not_mem_nil,false_or,List.mem_filter,decide_eq_true_eq,and_assoc]

/-- A function that uses more fields needs more arrays. -/
theorem argumentOrder_mono (inside : ∀ field ∈ functionToUsedFields program callee,
      field ∈ functionToUsedFields program function) {array : StructType × Nat}
    (needed : array ∈ argumentOrder program callee) : array ∈ argumentOrder program function := by
  obtain ⟨elided,isElided,field,isUsed,found⟩ := mem_argumentOrder.mp needed
  exact mem_argumentOrder.mpr ⟨elided,isElided,field,inside field isUsed,found⟩

/-- The main function and each clone have the arrays that they need. -/
theorem elisionValues_some (body : program.declared function = false) {array : StructType × Nat}
    (needed : array ∈ argumentOrder program function) :
    (elisionValues program function array).isSome := by
  obtain ⟨elided,isElided,field,isUsed,isType,candidate,isCandidate,isField,rfl⟩ :=
    mem_argumentOrder.mp needed
  unfold elisionValues
  split_ifs with isMain allocated isCloned
  · rfl
  · obtain ⟨less,_⟩ := List.mem_zipIdx' isCandidate
    exact absurd (List.any_eq_true.mpr ⟨elided,isElided,by simpa using less⟩) allocated
  · simpa using needed
  · refine absurd ?_ isCloned
    simp [Cloned,List.ne_nil_of_mem isUsed,isMain,body]

omit [DecidableEq Function] in
theorem elisionGroup_some {access : Access StructType} {candidate : Nat}
    (isGroup : elisionGroup program access = some candidate) : ∃ elided ∈ program.fieldsToElide,
      elided.1 = access.structType ∧ ∃ fields, (fields,candidate) ∈ elided.2.zipIdx ∧
        access.fieldIndex ∈ fields := by
  obtain ⟨elided,isElided,found⟩ := List.exists_of_findSome?_eq_some isGroup
  split_ifs at found with isType
  obtain ⟨less,isField,_⟩ := List.findIdx?_eq_some_iff_getElem.mp found
  exact ⟨elided,isElided,isType,elided.2[candidate],List.mem_zipIdx_iff_getElem?.mpr (by simp [less]),
    by simpa using isField⟩

omit [DecidableEq Function] in
/-- An access of an elided field is registered. -/
theorem elided_own {access : Access StructType} (isAccess : access ∈ program.accesses function)
    (isElided : elisionGroup program access ≠ none) :
    (access.structType,access.fieldIndex) ∈ fieldsToAccesses program function := by
  obtain ⟨candidate,isGroup⟩ := Option.ne_none_iff_exists'.mp isElided
  obtain ⟨elided,isElided,isType,fields,isCandidate,_⟩ := elisionGroup_some isGroup
  refine List.mem_filter.mpr ⟨List.mem_append_left _ (List.mem_map.mpr ⟨access,isAccess,rfl⟩),?_⟩
  refine List.any_eq_true.mpr ⟨elided,isElided,?_⟩
  have nonempty : elided.2 ≠ [] := by
    rintro empty
    simp [empty] at isCandidate
  simp [isType,nonempty]

/-- Every field that a function needs, by itself or by what it calls, is carried to it. -/
def CarriesAll (program : Module Function StructType) : Prop :=
  ∀ function callee, Reachable program function → Leads program.calls function callee →
    ∀ field ∈ fieldsToAccesses program callee, ∃ route,
      Carried program.calls (fieldsToAccesses program) program.main field route ∧
      Below program.calls program.main [] route function

omit [DecidableEq Function] in
theorem declared_unused (declared : program.declared function = true)
    (leads : Leads program.calls function callee) {field : StructType × Nat} :
    field ∉ fieldsToAccesses program callee := by
  obtain ⟨noCalls,noAccesses,noUses⟩ := program.no_body function declared
  rcases leads.cases_head with rfl | ⟨next,step,_⟩
  · simp [fieldsToAccesses,noAccesses,noUses]
  · rw [noCalls] at step
    exact absurd step (by simp)

theorem elisionValues_access (reachable : Reachable program function) {access : Access StructType}
    (isAccess : access ∈ program.accesses function) {candidate : Nat}
    (isGroup : elisionGroup program access = some candidate) :
    (elisionValues program function (access.structType,candidate)).isSome := by
  have body : program.declared function = false := by
    by_contra declared
    rw [(program.no_body function (by simpa using declared)).2.1] at isAccess
    exact absurd isAccess (by simp)
  obtain ⟨elided,isElided,isType,fields,isCandidate,isField⟩ := elisionGroup_some isGroup
  have isUsed := own_used reachable (elided_own isAccess (by simp [isGroup]))
  apply elisionValues_some body
  exact mem_argumentOrder.mpr ⟨elided,isElided,_,isUsed,isType.symm,_,isCandidate,isField,by rw [isType]⟩

/-- A function uses what it leads to if it uses what it calls. -/
theorem used_of_edges (edges : ∀ function callee, Reachable program function →
      some callee ∈ program.calls function → program.declared callee = false →
      ∀ field ∈ functionToUsedFields program callee, field ∈ functionToUsedFields program function)
    (reachable : Reachable program function) (leads : Leads program.calls function callee)
    {field : StructType × Nat} (isOwn : field ∈ fieldsToAccesses program callee) :
    field ∈ functionToUsedFields program function := by
  induction leads using Relation.ReflTransGen.head_induction_on with
  | refl => exact own_used reachable isOwn
  | @head function next step _ ih =>
    have used := ih (reachable.tail step)
    cases declared : program.declared next with
    | false => exact edges function next reachable step declared field used
    | true =>
      obtain ⟨other,leads,isOwn⟩ := used_leads used
      exact absurd isOwn (declared_unused declared leads)

theorem Passes.carriesAll (passes : Passes program) : CarriesAll program := by
  intro function callee reachable leads field isOwn
  exact usedFields_iff.mp (used_of_edges passes.edges reachable leads isOwn)

theorem CarriesAll.passes (carries : CarriesAll program) : Passes program := by
  have inside (function callee : Function) (reachable : Reachable program function)
      (called : some callee ∈ program.calls function) (field : StructType × Nat)
      (isUsed : field ∈ functionToUsedFields program callee) :
      field ∈ functionToUsedFields program function := by
    obtain ⟨other,leads,isOwn⟩ := used_leads isUsed
    exact usedFields_iff.mpr (carries function other reachable (leads.head called) field isOwn)
  have body (function callee : Function) (called : some callee ∈ program.calls function) :
      program.declared function = false := by
    by_contra declared
    rw [(program.no_body function (by simpa using declared)).1] at called
    exact absurd called (by simp)
  refine ⟨fun function callee reachable called _ => inside function callee reachable called,
    fun function reachable access isAccess isElided => own_used reachable (elided_own isAccess isElided),
    fun function callee reachable called => ?_,fun function reachable access isAccess isNull => ?_⟩
  · unfold newArguments
    split_ifs
    · rintro isNull
      obtain ⟨array,needed,isNone⟩ := List.mem_map.mp isNull
      have needed := argumentOrder_mono (inside function callee reachable called) needed
      have isSome := elisionValues_some (body function callee called) needed
      rw [isNone] at isSome
      exact absurd isSome (by simp)
    · simp
  · unfold replacementCollection at isNull
    cases isKind : access.kind with
    | structGet => simp [isKind] at isNull
    | structRead | structWrite =>
      simp only [isKind,Option.map_eq_some_iff] at isNull
      obtain ⟨candidate,isGroup,isNone⟩ := isNull
      have isSome := elisionValues_access reachable isAccess isGroup
      rw [isNone] at isSome
      exact absurd isSome (by simp)

theorem passes_iff (program : Module Function StructType) : Passes program ↔ CarriesAll program :=
  ⟨Passes.carriesAll,CarriesAll.passes⟩

end

inductive CycleFunction
  | main | accessor | caller
  deriving DecidableEq

/-- The entry calls a function that accesses the field and calls another one, which calls it back. -/
def cycle : Module CycleFunction Unit where
  functions := [.main,.accessor,.caller]
  main := .main
  declared := fun _ => false
  calls := fun function => match function with
    | .main => [some .accessor]
    | .accessor => [some .caller]
    | .caller => [some .accessor]
  accesses := fun function => match function with
    | .accessor => [⟨.structRead,(),0⟩]
    | _ => []
  otherUses := fun _ => []
  fieldsToElide := [((),[[0]])]
  main_function := by decide
  main_body := rfl
  calls_functions := fun _ _ callee _ => by cases callee <;> decide
  no_body := fun _ declared => absurd declared (by decide)
  single := by decide

/-- The field is used in the function that is called, and not in its caller. -/
theorem cycle_not_passes : ¬ Passes cycle := by
  intro passes
  have reachable : Reachable cycle .caller :=
    (Relation.ReflTransGen.single (by decide : some .accessor ∈ cycle.calls .main)).tail (by decide)
  have isUsed := passes.edges .caller .accessor reachable (by decide) rfl ((),0) (by decide)
  exact absurd isUsed (by decide)

end FieldElision
end Memoir
