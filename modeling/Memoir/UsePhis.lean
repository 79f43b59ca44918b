import Memoir.Placement

/-! The reaching definitions of SSA construction with UsePHIs or without, as a run of one visit after
another. Without UsePHIs it is the walk of the pass. The code that the visits make is left out. -/
namespace Memoir.UsePhis
open Construction Dominance

section
variable (usePhis : Bool) {function : Function} (tree : Tree function)

/-- The UsePHI behind a read or get becomes the reaching definition of the object. -/
def visitAccess (reaching : Reaching) (block i : Nat) (object : Value) : Option Reaching := do
  let (reaching,value) ← updateReachingDefinition tree reaching object (.before block i)
  if usePhis then
    let usePhi := Value.name (.ssa block i 0)
    let reaching := setReachingDefinition reaching object usePhi
    return setReachingDefinition reaching usePhi value
  else return reaching

def visitIndexReadInst (reaching : Reaching) (block i : Nat) (object : Value) : Option Reaching :=
  visitAccess usePhis tree reaching block i object

def visitAssocReadInst (reaching : Reaching) (block i : Nat) (object : Value) : Option Reaching :=
  visitAccess usePhis tree reaching block i object

def visitIndexGetInst (reaching : Reaching) (block i : Nat) (object : Value) : Option Reaching :=
  visitAccess usePhis tree reaching block i object

def visitAssocGetInst (reaching : Reaching) (block i : Nat) (object : Value) : Option Reaching :=
  visitAccess usePhis tree reaching block i object

/-- Here it is the collection that the UsePHI uses, and not its result. -/
def visitAssocHasInst (reaching : Reaching) (block i : Nat) (object : Value) : Option Reaching := do
  if usePhis then
    let (reaching,value) ← updateReachingDefinition tree reaching object (.before block i)
    let reaching := setReachingDefinition reaching object value
    return setReachingDefinition reaching value value
  else return reaching

def visit (reaching : Reaching) (block i : Nat) (n : Name) : Inst → Option Reaching
  | .indexRead object _ => visitIndexReadInst usePhis tree reaching block i object
  | .assocRead object _ => visitAssocReadInst usePhis tree reaching block i object
  | .indexGet object _ => visitIndexGetInst usePhis tree reaching block i object
  | .assocGet object _ => visitAssocGetInst usePhis tree reaching block i object
  | .assocHas object _ => visitAssocHasInst usePhis tree reaching block i object
  | inst => (Construction.visit tree reaching block i n inst).map Prod.fst

end

def defines (usePhis : Bool) (named : Name) (inst : Inst) : Bool :=
  Construction.defines named inst || usePhis && .name named ∈ inst.operands && match inst with
    | .indexRead _ _ | .assocRead _ _ | .indexGet _ _ | .assocGet _ _ => true
    | _ => false

section
variable (usePhis : Bool) {function : Function} (tree : Tree function)

def definitionParents (function : Function) (named : Name) : List Nat :=
  (named.block?).toList ++ (List.range function.blocks.length).filter fun block =>
    ((function.blocks[block]?).map fun b =>
      b.body.any fun entry => defines usePhis named entry.2).getD false

def phiParents (named : Name) : Option (List Nat) :=
  let worklist := definitionParents usePhis function named
  insertPhis tree named (worklist.length + function.blocks.length) worklist []

def insertedPhis : Option (List (Name × List Nat)) :=
  (memoirNames function).mapM fun named => do return (named,← phiParents usePhis tree named)

end

structure State where
  reaching : Reaching
  incoming : Name → List (Nat × Value)

inductive Visit
  | phi (n : Name)
  | insertedPhi (block : Nat) (named : Name)
  | inst (block i : Nat) (n : Name) (inst : Inst)
  | terminator (block last : Nat) (terminator : Terminator)
  | successorPhi (source last : Nat) (phi : Name)

section
variable (usePhis : Bool) {function : Function} (tree : Tree function)

def perform (state : State) : Visit → Option State
  | .phi n => some {state with reaching := setReachingDefinition state.reaching (.name n) (.name n)}
  | .insertedPhi block named => do
    let reaching ← visitInsertedPhi tree state.reaching block named
    return {state with reaching}
  | .inst block i n inst => do
    let reaching ← visit usePhis tree state.reaching block i n inst
    return {state with reaching}
  | .terminator block last terminator => do
    let (reaching,_) ← visitTerminator tree state.reaching block last terminator
    return {state with reaching}
  | .successorPhi source last phi => do
    let value ← (state.incoming phi).lookup source
    let (reaching,definition) ←
      updateReachingDefinition tree state.reaching value (.before source last)
    return ⟨reaching,Function.update state.incoming phi
      (setIncoming source definition (state.incoming phi))⟩

variable (function) (inserted : List (Name × List Nat))

def State.initial : State :=
  ⟨(memoirNames function).map fun named => (.name named,.name named),initialIncoming function⟩

def blockVisits (block : Nat) : List Visit :=
  match function.blocks[block]? with
  | none => []
  | some b =>
    b.phis.map (fun entry => .phi entry.1) ++ (insertedAt inserted block).map (.insertedPhi block) ++
      b.body.mapIdx (fun i entry => .inst block i entry.1 entry.2) ++
      .terminator block b.body.length b.terminator ::
      (function.successors block).flatMap fun successor =>
        (collectionPhis function inserted successor).map (.successorPhi block b.body.length)

variable {function}

def visits : List Visit := tree.preorder.flatMap (blockVisits function inserted)

inductive Reached (allowed : State → Visit → Prop) : State → List Visit → Prop
  | initial : Reached allowed (.initial function) (visits tree inserted)
  | step {state after : State} {visit : Visit} {rest : List Visit}
    (reached : Reached allowed state (visit :: rest)) (isAllowed : allowed state visit)
    (ran : perform usePhis tree state visit = some after) : Reached allowed after rest

end

section
variable {function : Function} {tree : Tree function} {inserted : List (Name × List Nat)}

theorem insertedPhis_false : insertedPhis false tree = Construction.insertedPhis tree := by
  have same : ∀ named,definitionParents false function named =
      Construction.definitionParents function named := by
    intro named
    simp [definitionParents,Construction.definitionParents,defines]
  simp only [insertedPhis,Construction.insertedPhis,phiParents,Construction.phiParents,same]

theorem visit_false (reaching : Reaching) (block i : Nat) (n : Name) (inst : Inst) :
    visit false tree reaching block i n inst =
      (Construction.visit tree reaching block i n inst).map Prod.fst := by
  have access : ∀ object build,visitAccess false tree reaching block i object =
      (visitRead tree reaching block i n object build).map Prod.fst := by
    intro object build
    simp only [visitAccess,visitRead]
    cases updateReachingDefinition tree reaching object (.before block i) <;> rfl
  cases inst with
  | indexRead object index => exact access object (.indexRead · index)
  | assocRead object key => exact access object (.assocRead · key)
  | indexGet object index => exact access object (.indexGet · index)
  | assocGet object key => exact access object (.assocGet · key)
  | assocHas object key => rfl
  | _ => rfl

def run (tree : Tree function) (state : State) (visits : List Visit) : Option State :=
  visits.foldlM (perform false tree) state

theorem run_append (state : State) (first second : List Visit) :
    run tree state (first ++ second) = (run tree state first).bind (run tree · second) := by
  simp [run,List.foldlM_append]

theorem foldlM_map {α β γ : Type} {f : β → α → Option β} {f' : γ → α → Option γ} {view : β → γ}
    (agrees : ∀ state item,f' (view state) item = (f state item).map view) (items : List α) :
    ∀ state,items.foldlM f' (view state) = (items.foldlM f state).map view := by
  induction items with
  | nil => exact fun _ => rfl
  | cons item items ih =>
    intro state
    simp only [List.foldlM_cons,agrees,Option.bind_eq_bind]
    cases f state item with
    | none => rfl
    | some after => exact ih after

theorem run_phis (phis : List (Name × Phi)) (reaching : Reaching)
    (incoming : Name → List (Nat × Value)) :
    run tree ⟨reaching,incoming⟩ (phis.map fun entry => .phi entry.1) =
      some ⟨phis.foldl (fun reaching entry =>
        setReachingDefinition reaching (.name entry.1) (.name entry.1)) reaching,incoming⟩ := by
  induction phis generalizing reaching with
  | nil => rfl
  | cons entry phis ih => exact ih _

theorem run_insertedPhis (block : Nat) (names : List Name) (reaching : Reaching)
    (incoming : Name → List (Nat × Value)) :
    run tree ⟨reaching,incoming⟩ (names.map (.insertedPhi block)) =
      (visitInsertedPhis tree block reaching names).map (⟨·,incoming⟩) := by
  induction names generalizing reaching with
  | nil => rfl
  | cons named names ih =>
    simp only [run,List.map_cons,List.foldlM_cons,perform,visitInsertedPhis]
    cases visitInsertedPhi tree reaching block named with
    | none => rfl
    | some reaching => exact ih reaching

theorem run_body (block : Nat) (body : List (Name × Inst)) (i : Nat) (reaching : Reaching)
    (incoming : Name → List (Nat × Value)) :
    run tree ⟨reaching,incoming⟩
        (body.mapIdx fun j entry => .inst block (i + j) entry.1 entry.2) =
      (visitBody tree block i reaching body).map fun result => ⟨result.1,incoming⟩ := by
  induction body generalizing i reaching with
  | nil => rfl
  | cons entry body ih =>
    simp only [run,List.mapIdx_cons,List.foldlM_cons,perform,visitBody,visit_false,Nat.add_zero]
    cases Construction.visit tree reaching block i entry.1 entry.2 with
    | none => rfl
    | some visited =>
      have rest := ih (i + 1) visited.1
      simp only [Nat.add_assoc,Nat.add_comm 1] at rest
      simp only [Option.map_some,Option.bind_eq_bind,Option.bind_some,Option.pure_def]
      refine rest.trans ?_
      cases visitBody tree block (i + 1) visited.1 body <;> rfl

def stateOf (walk : Walk) : State := ⟨walk.reaching,walk.incoming⟩

theorem run_successors (source last : Nat) (successors : List Nat) (walk : Walk) :
    run tree (stateOf walk) (successors.flatMap fun successor =>
        (collectionPhis function inserted successor).map (.successorPhi source last)) =
      (successors.foldlM (fun walk successor =>
        visitSuccessorPhis tree source last walk (collectionPhis function inserted successor))
          walk).map stateOf := by
  induction successors generalizing walk with
  | nil => rfl
  | cons successor successors ih =>
    have here : run tree (stateOf walk)
        ((collectionPhis function inserted successor).map (.successorPhi source last)) =
        (visitSuccessorPhis tree source last walk
          (collectionPhis function inserted successor)).map stateOf := by
      rw [run,List.foldlM_map]
      apply foldlM_map
      intro walk phi
      simp only [perform,visitSuccessorPhi,stateOf]
      cases (walk.incoming phi).lookup source with
      | none => rfl
      | some value =>
        simp only [Option.bind_eq_bind,Option.bind_some]
        cases updateReachingDefinition tree walk.reaching value (.before source last) <;> rfl
    rw [List.flatMap_cons,run_append,here,List.foldlM_cons]
    cases visitSuccessorPhis tree source last walk (collectionPhis function inserted successor) with
    | none => rfl
    | some after => exact ih after

theorem run_block {block : Nat} {b : BasicBlock} (found : function.blocks[block]? = some b)
    (walk : Walk) : run tree (stateOf walk) (blockVisits function inserted block) =
      (visitBlock tree inserted walk block).map stateOf := by
  have body := @run_body function tree block b.body 0
  simp only [Nat.zero_add] at body
  simp only [blockVisits,visitBlock,found,run_append,stateOf,run_phis,Option.bind_eq_bind,
    Option.bind_some,run_insertedPhis]
  cases visitInsertedPhis tree block _ (insertedAt inserted block) with
  | none => rfl
  | some reaching =>
    simp only [Option.map_some,Option.bind_some,body]
    cases visitBody tree block 0 reaching b.body with
    | none => rfl
    | some visited =>
      simp only [Option.map_some,Option.bind_some,run,List.foldlM_cons,perform]
      cases visitTerminator tree visited.1 block b.body.length b.terminator with
      | none => rfl
      | some ended => exact run_successors block b.body.length _ ⟨ended.1,walk.incoming,_⟩

/-- The states of the two runs are the same. -/
theorem run_visits (known : ∀ block ∈ tree.preorder,block < function.blocks.length) :
    run tree (.initial function) (visits tree inserted) =
      (tree.preorder.foldlM (visitBlock tree inserted) (initialWalk function)).map stateOf := by
  rw [visits]
  change run tree (stateOf (initialWalk function)) _ = _
  generalize initialWalk function = walk
  revert known
  induction tree.preorder generalizing walk with
  | nil => exact fun _ => rfl
  | cons block blocks ih =>
    intro known
    have found := List.getElem?_eq_getElem (known block List.mem_cons_self)
    rw [List.flatMap_cons,run_append,run_block found,List.foldlM_cons]
    cases visitBlock tree inserted walk block with
    | none => rfl
    | some after => exact ih after fun other member => known other (List.mem_cons_of_mem block member)

end

end Memoir.UsePhis
