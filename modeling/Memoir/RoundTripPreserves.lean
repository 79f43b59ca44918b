import Memoir.RoundTripEdges

/-! Construction and destruction with no pass between them keep what a function does: every run in place is
followed by the lowered function, on the same objects. -/
namespace Memoir.Construction.RoundTrip
open Dominance Destruction
open Unversioned (Covers)

structure Matched (program : Program) (tree : Tree program.function) (inserted : List (Name × List Nat))
    (f : Value → Value) (block : BasicBlock) (i : Nat) (before before' : Config Nat (Content Nat)) :
    Prop where
  found : program.function.blocks[before.block]? = some block
  bound : i ≤ block.body.length
  rest : before.rest = block.body.drop i
  block' : before'.block = before.block
  rest' : before'.rest = ((loweredBody program tree inserted f before.block block.body).drop i).flatten
  reachable : program.function.graph.Reachable before.block
  mirrored : Mirrored program tree inserted f before.block i before.state.env before'.state.env
  covers : Covers before.state before'.state

/-- The same calls have been made, every object is where it was, and every name and what is returned
stand for the same object or word. -/
structure Agrees (function result : Function) (before before' : Config Stamp Object) : Prop where
  block : before'.block = before.block
  calls : calls before'.state.trace = calls before.state.trace
  names : ∀ n, ¬Name.IsNew n → function.splitResult n = false →
    (before'.state.env n).map (RtValue.map Stamp.handle) =
      (before.state.env n).map (RtValue.map Stamp.handle)
  contents : ∀ handle object, before.state.memory handle = some object →
    ∃ object', before'.state.memory handle = some object' ∧
      object'.content.map Stamp.handle = object.content.map Stamp.handle
  next : before'.state.next = before.state.next
  returned : before.rest = [] → before'.rest = [] ∧ ∀ block value,
    function.blocks[before.block]? = some block → block.terminator = .ret (some value) →
      ∃ block' value', result.blocks[before.block]? = some block' ∧
        block'.terminator = .ret (some value') ∧
        (evaluate before'.state.env value').map (RtValue.map Stamp.handle) =
          (evaluate before.state.env value).map (RtValue.map Stamp.handle)

section
variable {program : Program} {tree : Tree program.function} {inserted : List (Name × List Nat)}
  {tree' : Tree (constructed program.function tree inserted)} {f : Value → Value} {oracle : Oracle}
  {block : BasicBlock} {i : Nat} {before after before' : Config Nat (Content Nat)}

/-- Before the first instruction of the function a version is its variable. -/
theorem version_entry (closed : Closed tree inserted) {x d : Name}
    (version : Version program.function inserted x d) (above : dominates tree d (.before 0 0) = true) :
    d = x := by
  have none : d.block? = none ∨ d.block? = some 0 ∧ d.position = 0 := by
    cases at_ : d.block? with
    | none => exact .inl rfl
    | some b =>
      rcases (dominates_iff tree at_ _).mp above with ⟨rfl,lower⟩ | ⟨apart,above⟩
      · refine .inr ⟨rfl,?_⟩
        simpa [Point.position] using lower
      · exact absurd (List.mem_singleton.mp (above _ .start)) apart
  cases version with
  | first =>
    unfold firstVersion
    split
    · split_ifs with isSplit
      · simp [firstVersion,isSplit,Name.block?,Name.position] at none
      · rfl
    · rfl
  | redefined _ _ => simp [Name.block?,Name.position] at none
  | @inserted b member =>
    obtain ⟨a,source,_,edge,_⟩ : ∃ a, program.function.graph.InFrontier a b := by
      cases closed.merged b x member with
      | first _ frontier _ => exact ⟨_,frontier⟩
      | next _ frontier _ => exact ⟨_,frontier⟩
    simp only [Name.block?,Option.some.injEq,reduceCtorEq,false_or] at none
    exact absurd none.1 (program.targets source b edge).2

theorem Mirrored.start (closed : Closed tree inserted) (env : Env Nat) :
    Mirrored program tree inserted f 0 0 env env where
  names := fun _ _ _ => rfl
  versions := fun _ _ _ version above _ => congrArg env (version_entry closed version above)

theorem lowered_block {b : Nat} (found : program.function.blocks[b]? = some block) :
    (lowered (constructed program.function tree inserted) tree' f).blocks[b]? =
      some (lowerBlock (constructed program.function tree inserted) tree' f b
        (constructedBlock program.function tree inserted b block)) := by
  have new := (constructed_block tree inserted b).trans (congrArg _ found)
  simp [lowered,List.getElem?_mapIdx,new]

theorem lowered_terminator {b : Nat} (reachable : program.function.graph.Reachable b) :
    (lowerBlock (constructed program.function tree inserted) tree' f b
      (constructedBlock program.function tree inserted b block)).terminator =
        (translateTerminator (nearest program.function tree inserted (.before b block.body.length))
          block.terminator).mapCollections f := by
  rw [← constructedBlock_terminator reachable]
  rfl

theorem Matched.next {n : Name} {inst : Inst} {rest : List (Name × Inst)}
    (matched : Matched program tree inserted f block i before before')
    (is : before.rest = (n,inst) :: rest) :
    n = .inst before.block i ∧ block.body[i]? = some (n,inst) ∧ rest = block.body.drop (i + 1) ∧
      before'.rest = loweredCode (fun v => f (rename (nearest program.function tree inserted
          (.before before.block i)) v)) before.block i n inst ++
        ((loweredBody program tree inserted f before.block block.body).drop (i + 1)).flatten := by
  have split := matched.rest.symm.trans is
  obtain ⟨bound,entry,rfl⟩ : ∃ bound : i < block.body.length, block.body[i] = (n,inst) ∧
      rest = block.body.drop (i + 1) := by
    rcases Nat.lt_or_ge i block.body.length with bound | ge
    · rw [List.drop_eq_getElem_cons bound] at split
      obtain ⟨head,tail⟩ := List.cons.inj split
      exact ⟨bound,head,tail.symm⟩
    · rw [List.drop_eq_nil_of_le ge] at split
      exact absurd split (by simp)
  have entry := (List.getElem?_eq_getElem bound).trans (congrArg some entry)
  have bound' : i < (loweredBody program tree inserted f before.block block.body).length := by
    simpa [loweredBody] using bound
  refine ⟨program.name_at matched.found entry,entry,rfl,?_⟩
  rw [matched.rest',List.drop_eq_getElem_cons bound',List.flatten_cons]
  obtain ⟨_,same⟩ := List.getElem?_eq_some_iff.mp entry
  simp [loweredBody,same]

theorem Matched.last (matched : Matched program tree inserted f block i before before')
    (is : before.rest = []) : i = block.body.length ∧ before'.rest = [] := by
  have atEnd : block.body.length ≤ i := List.drop_eq_nil_iff.mp (matched.rest.symm.trans is)
  have same := Nat.le_antisymm matched.bound atEnd
  refine ⟨same,?_⟩
  rw [matched.rest',same,List.drop_eq_nil_of_le (by simp [loweredBody]),List.flatten_nil]

variable (ends : Ends program tree inserted tree' f) (renamable : Renamable program tree)
  (placed : Placed program inserted) (closed : Closed tree inserted)
include ends renamable placed closed

theorem Matched.instruction {n : Name} {inst : Inst} {rest : List (Name × Inst)}
    (matched : Matched program tree inserted f block i before before')
    (is : before.rest = (n,inst) :: rest) {state : Unversioned.Store}
    (ran : Unversioned.exec (environment oracle) n inst before.state = some state) :
    ∃ after', Run (lowered (constructed program.function tree inserted) tree' f)
        (Unversioned.exec (environment oracle)) (fun _ => True) before' after' ∧
      Matched program tree inserted f block (i + 1) ⟨before.block,rest,state⟩ after' := by
  obtain ⟨rfl,entry,rest_,rest'⟩ := matched.next is
  have at_ : program.function.instruction? (.inst before.block i) = some inst := by
    simp [Function.instruction?,matched.found,entry]
  obtain ⟨after',run,mirrored,covers⟩ := matched.mirrored.follow ends renamable placed closed
    matched.covers matched.reachable at_ ran
  let remaining := ((loweredBody program tree inserted f before.block block.body).drop (i + 1)).flatten
  refine ⟨⟨before.block,remaining,after'⟩,?_,matched.found,?_,rest_,rfl,rfl,matched.reachable,mirrored,
    covers⟩
  · have same : before' = ⟨before.block,before'.rest,before'.state⟩ := by
      rw [← matched.block']
    rw [same,rest']
    exact run _ _
  · exact (List.getElem?_eq_some_iff.mp entry).1

theorem Matched.edge (matched : Matched program tree inserted f block i before before')
    (is : before.rest = [])
    (ran : step program.function (Unversioned.exec (environment oracle)) before = some after) :
    ∃ block after', Run (lowered (constructed program.function tree inserted) tree' f)
        (Unversioned.exec (environment oracle)) (fun _ => True) before' after' ∧
      Matched program tree inserted f block 0 after after' := by
  obtain ⟨b,rest,state⟩ := before
  obtain ⟨b',rest',state'⟩ := before'
  obtain ⟨found,_,_,rfl,_,reachable,mirrored,covers⟩ := id matched
  obtain rfl : rest = [] := is
  obtain ⟨rfl,rfl⟩ : i = block.body.length ∧ rest' = [] := matched.last rfl
  obtain ⟨source,selector,targets,w,t,found',terminator,selected,chosen,entering⟩ := step_edge ran
  obtain rfl : block = source := Option.some.inj (found.symm.trans found')
  have edge : t ∈ program.function.successors b' := by
    rw [Function.successors_eq,found',Option.map_some,terminator]
    exact target_mem chosen
  obtain ⟨block',taken,found'',isTaken,rfl⟩ := enter_some entering
  have reachable' := reachable.successor edge
  have inBlocks := List.mem_of_getElem? found'
  have selected' : word state'.env selector = some w := by
    cases selector with
    | constant _ => exact selected
    | name n =>
      have same : state'.env n = state.env n := by
        refine mirrored.scalar_name ((program.ssa.defined _ inBlocks).2.1 n ?_)
          ((program.scalars _ inBlocks).2.2.1 n _ terminator)
        simp [terminator,Terminator.names,Scalar.name?]
      simpa only [word,same] using selected
  obtain ⟨taken',isTaken'⟩ : ∃ taken', incomingValues (loweredPhis program tree inserted f t block') b'
      state'.env = some taken' := lowered_taken edge found'' state'.env
  have new : (lowered (constructed program.function tree inserted) tree' f).blocks[t]? = some _ :=
    lowered_block found''
  have entered' := enter_eq new isTaken'
  have terminator' : (lowerBlock (constructed program.function tree inserted) tree' f b'
      (constructedBlock program.function tree inserted b' block)).terminator =
        .switch selector targets := by
    rw [lowered_terminator reachable,terminator]
    rfl
  refine ⟨block',_,.single ⟨trivial,(step_enter (lowered_block found') terminator' selected'
    chosen).trans entered'⟩,found'',Nat.zero_le _,rfl,rfl,ends.body reachable' found'',reachable',?_,?_⟩
  · exact mirrored.enter ends renamable placed closed reachable found edge found'' isTaken isTaken'
  · exact ⟨covers.memory,covers.next,covers.calls,covers.bounded⟩

theorem Matched.step (matched : Matched program tree inserted f block i before before')
    (ran : step program.function (Unversioned.exec (environment oracle)) before = some after) :
    ∃ block i after', Run (lowered (constructed program.function tree inserted) tree' f)
        (Unversioned.exec (environment oracle)) (fun _ => True) before' after' ∧
      Matched program tree inserted f block i after after' := by
  cases is : before.rest with
  | nil =>
    obtain ⟨block,after',run,matched⟩ := matched.edge ends renamable placed closed is ran
    exact ⟨block,0,after',run,matched⟩
  | cons entry rest =>
    obtain ⟨n,inst⟩ := entry
    have same : before = ⟨before.block,(n,inst) :: rest,before.state⟩ := by
      rw [← is]
    rw [same] at ran
    obtain ⟨state,executed,rfl⟩ := step_instruction ran
    obtain ⟨after',run,matched⟩ := matched.instruction ends renamable placed closed is executed
    exact ⟨block,i + 1,after',run,matched⟩

/-- What is returned from the end of a block. -/
theorem Matched.returned (matched : Matched program tree inserted f block i before before')
    (is : before.rest = []) {value : Element} (returned : block.terminator = .ret (some value)) :
    ∃ value', (lowerBlock (constructed program.function tree inserted) tree' f before.block
        (constructedBlock program.function tree inserted before.block block)).terminator =
          .ret (some value') ∧
      evaluate before'.state.env value' = evaluate before.state.env value := by
  obtain ⟨rfl,_⟩ := matched.last is
  have inBlocks := List.mem_of_getElem? matched.found
  rw [lowered_terminator matched.reachable,returned]
  rcases value with scalar | value
  · refine ⟨_,rfl,?_⟩
    cases scalar with
    | constant _ => rfl
    | name n =>
      refine matched.mirrored.scalar_name ((program.ssa.defined _ inBlocks).2.1 n ?_)
        ((program.scalars _ inBlocks).2.1 n returned)
      simp [returned,Terminator.names,Element.name?,Scalar.name?]
  · refine ⟨_,rfl,?_⟩
    cases value with
    | constant _ => exact congrArg (fun v => evaluate _ (.collection v)) (ends.constant rfl)
    | null => exact congrArg (fun v => evaluate _ (.collection v)) (ends.constant rfl)
    | name x =>
      have used : .name x ∈ block.terminator.operands := by
        simp [returned,Terminator.operands,Element.collection?]
      have usable := program.ssa.terminator _ block matched.found _ used
      have ready : Ready program tree x (endPoint program.function before.block) := by
        simp only [endPoint,matched.found]
        exact ready_of_dominates (terminator_variable inBlocks used) (program.available_dominates tree
          (usable.2 x rfl matched.reachable))
      have same := matched.mirrored.outgoing ends renamable placed closed matched.reachable matched.found
        ready
      simp only [endPoint,matched.found] at same
      exact same

theorem Matched.agrees {before before' : Config Stamp Object}
    (matched : Matched program tree inserted f block i before.erase before'.erase) :
    Agrees program.function (lowered (constructed program.function tree inserted) tree' f) before before' where
  block := matched.block'
  calls := matched.covers.calls
  names := fun n old plain => matched.mirrored.names n old plain
  contents := by
    intro handle object is
    have here : before.erase.state.memory handle = some (object.content.map Stamp.handle) := by
      simp [Config.erase,InPlace.erase,is]
    have there := matched.covers.memory _ _ here
    exact Option.map_eq_some_iff.mp there
  next := matched.covers.next
  returned := by
    intro is
    obtain ⟨_,rest⟩ := matched.last is
    refine ⟨rest,fun block' value found returned => ?_⟩
    obtain rfl : block = block' := Option.some.inj (matched.found.symm.trans found)
    obtain ⟨value',terminator,same⟩ := matched.returned ends renamable placed closed is returned
    refine ⟨_,value',lowered_block found,terminator,?_⟩
    rw [← evaluate_rename,← evaluate_rename]
    exact same

omit renamable placed in
theorem Matched.start {state : Unversioned.Store}
    (bounded : ∀ handle content, state.memory handle = some content → handle < state.next) :
    ∃ block, Matched program tree inserted f block 0 (start program.function state)
      (start (lowered (constructed program.function tree inserted) tree' f) state) := by
  have nonempty := program.nonempty
  have found := List.getElem?_eq_getElem nonempty
  have new : (lowered (constructed program.function tree inserted) tree' f).blocks[0]? = some _ :=
    lowered_block found
  have entry : program.function.graph.Reachable 0 := ⟨_,.start⟩
  refine ⟨program.function.blocks[0],found,Nat.zero_le _,?_,rfl,?_,entry,.start closed _,
    ⟨fun _ _ => id,rfl,rfl,bounded⟩⟩
  · simp [Memoir.start,found]
  · simp only [Memoir.start,new,Option.map_some,Option.getD_some,List.drop_zero]
    exact ends.body entry found

end

end Memoir.Construction.RoundTrip
