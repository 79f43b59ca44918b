import Memoir.ConstructionEdges

/-! Construction keeps what a function does: every run in place is followed by a run of
the new function with value semantics. -/
namespace Memoir
open Dominance

namespace InPlace

structure Initial (state : Store) : Prop where
  env : ∀ n, state.defined n = state.env n
  named : ∀ n value, state.env n = some value → ∀ stamp ∈ value.references, Seen state stamp
  handles : ∀ handle object, state.memory handle = some object → handle < state.next
  contents : ∀ handle object, state.memory handle = some object →
    ∀ stamp ∈ object.content.references, Seen state stamp

def values (state : Store) : Pure.Store where
  env n := (state.env n).map (RtValue.map Stamp.handle)
  defined n := (state.defined n).map (RtValue.map Stamp.handle)
  memory handle := (state.memory handle).map fun object => object.content.map Stamp.handle
  next := state.next
  trace := state.trace

theorem Initial.stored {state : Store} (initial : Initial state) :
    Stored Stamp.handle state (values state) where
  handles := initial.handles
  tokens := by
    intro handle object found
    exact ⟨initial.handles handle object found,by simp [values,found]⟩
  contents := initial.contents
  env := initial.named
  defined := by
    intro n value is
    rw [initial.env] at is
    exact initial.named n value is
  trace := rfl

end InPlace

theorem target_mem {targets : List Nat} {selector : Word} {t : Nat}
    (is : target targets selector = some t) : t ∈ targets := by
  unfold target at is
  rcases chosen : targets[selector]? with _ | t'
  · rw [chosen] at is
    exact List.mem_of_getLast? is
  · rw [chosen] at is
    obtain rfl := Option.some.inj is
    exact List.mem_of_getElem? chosen

theorem step_instruction {ρ μ : Type} {function : Function}
    {exec : Name → Inst → State ρ μ → Option (State ρ μ)} {b : Nat} {n : Name} {inst : Inst}
    {rest : List (Name × Inst)} {state : State ρ μ} {after : Config ρ μ}
    (ran : step function exec ⟨b,(n,inst) :: rest,state⟩ = some after) :
    ∃ state', exec n inst state = some state' ∧ after = ⟨b,rest,state'⟩ := by
  simp only [step,Option.map_eq_some_iff] at ran
  obtain ⟨state',executed,rfl⟩ := ran
  exact ⟨state',executed,rfl⟩

theorem step_edge {ρ μ : Type} {function : Function}
    {exec : Name → Inst → State ρ μ → Option (State ρ μ)} {b : Nat} {state : State ρ μ}
    {after : Config ρ μ} (ran : step function exec ⟨b,[],state⟩ = some after) :
    ∃ block selector targets w t, function.blocks[b]? = some block ∧
      block.terminator = .switch selector targets ∧ word state.env selector = some w ∧
      target targets w = some t ∧ enter function b t state = some after := by
  simp only [step,Option.bind_eq_bind,Option.bind_eq_some_iff] at ran
  obtain ⟨block,found,ran⟩ := ran
  cases is : block.terminator with
  | ret value =>
    rw [is] at ran
    exact absurd ran (by simp)
  | switch selector targets =>
    rw [is] at ran
    simp only [Option.bind_eq_some_iff] at ran
    obtain ⟨w,selected,t,chosen,entered⟩ := ran
    exact ⟨block,selector,targets,w,t,found,is,selected,chosen,entered⟩

theorem step_enter {ρ μ : Type} {function : Function}
    {exec : Name → Inst → State ρ μ → Option (State ρ μ)} {b t w : Nat} {state : State ρ μ}
    {block : BasicBlock} {selector : Scalar} {targets : List Nat}
    (found : function.blocks[b]? = some block) (is : block.terminator = .switch selector targets)
    (selected : word state.env selector = some w) (chosen : target targets w = some t) :
    step function exec ⟨b,[],state⟩ = enter function b t state := by
  simp only [step,found,is,selected,chosen,Option.bind_eq_bind,Option.bind_some]

namespace Construction
open InPlace (Seen Current)

structure Matched (program : Program) (tree : Tree program.function)
    (inserted : List (Name × List Nat)) (token : Stamp → Nat) (block : BasicBlock) (i : Nat)
    (before : Config Stamp Object) (before' : Config Nat (Content Nat)) : Prop where
  found : program.function.blocks[before.block]? = some block
  bound : i ≤ block.body.length
  rest : before.rest = block.body.drop i
  block' : before'.block = before.block
  rest' : before'.rest =
    ((translatedBody program.function tree inserted before.block block.body).drop i).flatten
  reachable : program.function.graph.Reachable before.block
  named : Named program tree inserted token before.block i before.state before'.state
  stored : Stored token before.state before'.state

/-- What construction relies on at the next instruction, if there is one. -/
def Reliable (function : Function) (oracle : Oracle) (config : Config Stamp Object) : Prop :=
  ∀ n inst rest, config.rest = (n,inst) :: rest →
    Tracked function oracle config.state n inst

/-- Every operand and every edge names the value that the run in place has there. -/
structure Agrees (function result : Function) (token : Stamp → Nat) (before : Config Stamp Object)
    (before' : Config Nat (Content Nat)) : Prop where
  block : before'.block = before.block
  trace : before'.state.trace = before.state.trace
  scalars : ∀ n, function.Defined n → function.IsScalar n →
    before'.state.env n = (before.state.env n).map (RtValue.map token)
  contents : ∀ stamp content, Current before.state stamp →
    InPlace.content before.state stamp = some content →
      before'.state.memory (token stamp) = some (content.map token)
  instruction : ∀ n inst rest, before.rest = (n,inst) :: rest → ∃ version b i rest',
    n = .inst b i ∧ before'.rest = translate version b i n inst ++ rest' ∧
      (∀ x, .name x ∈ inst.operands →
        before'.state.env (version x) = (before.state.env x).map (RtValue.map token)) ∧
      ∀ x, .name x ∈ inst.unrenamed → before.state.env x = before.state.defined x →
        before'.state.env x = (before.state.env x).map (RtValue.map token)
  returned : before.rest = [] → before'.rest = [] ∧ ∃ version block block',
    function.blocks[before.block]? = some block ∧ result.blocks[before.block]? = some block' ∧
      block'.terminator = translateTerminator version block.terminator ∧
      ∀ x, .name x ∈ block.terminator.operands →
        before'.state.env (version x) = (before.state.env x).map (RtValue.map token)
  edges : before.rest = [] → ∀ t ∈ function.successors before.block, ∀ block,
    function.blocks[t]? = some block → ∀ n phi element, (n,phi) ∈ block.phis →
      phi.incoming.lookup before.block = some element → ∃ block' phi' element',
        result.blocks[t]? = some block' ∧ (n,phi') ∈ block'.phis ∧
          phi'.incoming.lookup before.block = some element' ∧
          evaluate before'.state.env element' =
            (evaluate before.state.env element).map (RtValue.map token)

section
variable {program : Program} {tree : Tree program.function} {inserted : List (Name × List Nat)}
  {oracle : Oracle} {token : Stamp → Nat} {block : BasicBlock} {i : Nat}
  {before after : Config Stamp Object} {before' : Config Nat (Content Nat)}

theorem constructedBlock_terminator {b : Nat} (reachable : program.function.graph.Reachable b)
    (block : BasicBlock) :
    (constructedBlock program.function tree inserted b block).terminator =
      translateTerminator (nearest program.function tree inserted (.before b block.body.length))
        block.terminator := by
  unfold constructedBlock
  dsimp only
  rw [if_pos ((tree.preorder_reachable b).mpr reachable)]
  rfl

/-- At the start no version has been made but the first ones. -/
theorem Named.start {state : InPlace.Store} (closed : Closed tree inserted)
    (initial : InPlace.Initial state) :
    Named program tree inserted Stamp.handle 0 0 state (InPlace.values state) where
  firsts := by
    intro n _ _
    rw [initial.env]
    rfl
  scalars := fun n _ => (initial.env n).symm
  versions := by
    intro x variable_ _ d nearest
    have none : d.block? = none ∨ d.block? = some 0 ∧ d.position = 0 := by
      cases at_ : d.block? with
      | none => exact .inl rfl
      | some b =>
        rcases (dominates_iff tree at_ _).mp nearest.2.1 with ⟨rfl,lower⟩ | ⟨apart,above⟩
        · refine .inr ⟨rfl,?_⟩
          simpa [Point.position] using lower
        · exact absurd (List.mem_singleton.mp (above _ .start)) apart
    have same : d = x := by
      cases nearest.1 with
      | first =>
        unfold firstVersion
        split
        · split_ifs with isSplit
          · simp [firstVersion,isSplit,Name.block?,Name.position] at none
          · rfl
        · rfl
      | redefined _ _ => simp [Name.block?,Name.position] at none
      | @inserted b member =>
        obtain ⟨a,source,_,edge,_⟩ : ∃ a, program.function.graph.InFrontier a b := by
          cases closed.merged b x member with
          | first _ frontier _ => exact ⟨_,frontier⟩
          | next _ frontier _ => exact ⟨_,frontier⟩
        simp only [Name.block?,Option.some.injEq,reduceCtorEq,false_or] at none
        exact absurd none.1 (program.targets source b edge).2
    rw [same]
    rfl

theorem Matched.next {n : Name} {inst : Inst} {rest : List (Name × Inst)}
    (matched : Matched program tree inserted token block i before before')
    (is : before.rest = (n,inst) :: rest) :
    n = .inst before.block i ∧ block.body[i]? = some (n,inst) ∧ rest = block.body.drop (i + 1) ∧
      before'.rest = translate (nearest program.function tree inserted (.before before.block i))
        before.block i n inst ++ ((translatedBody program.function tree inserted before.block
          block.body).drop (i + 1)).flatten := by
  have split := matched.rest.symm.trans is
  obtain ⟨bound,entry,rfl⟩ : ∃ bound : i < block.body.length, block.body[i] = (n,inst) ∧
      rest = block.body.drop (i + 1) := by
    rcases Nat.lt_or_ge i block.body.length with bound | ge
    · rw [List.drop_eq_getElem_cons bound] at split
      obtain ⟨head,tail⟩ := List.cons.inj split
      exact ⟨bound,head,tail.symm⟩
    · rw [List.drop_eq_nil_of_le ge] at split
      exact absurd split (by simp)
  have entry := (List.getElem?_eq_getElem bound).trans (congrArg some entry)
  have bound' : i < (translatedBody program.function tree inserted before.block block.body).length := by
    simpa [translatedBody] using bound
  refine ⟨program.name_at matched.found entry,entry,rfl,?_⟩
  rw [matched.rest',List.drop_eq_getElem_cons bound',List.flatten_cons]
  obtain ⟨_,same⟩ := List.getElem?_eq_some_iff.mp entry
  simp [translatedBody,same]

theorem Matched.last (matched : Matched program tree inserted token block i before before')
    (is : before.rest = []) : i = block.body.length ∧ before'.rest = [] := by
  have atEnd : block.body.length ≤ i := by
    have split := matched.rest.symm.trans is
    exact List.drop_eq_nil_iff.mp split
  have same := Nat.le_antisymm matched.bound atEnd
  refine ⟨same,?_⟩
  rw [matched.rest',same,List.drop_eq_nil_of_le (by simp [translatedBody]),List.flatten_nil]

variable (renamable : Renamable program tree) (placed : Placed program inserted)
  (closed : Closed tree inserted)
include renamable placed closed

theorem Matched.instruction {n : Name} {inst : Inst} {rest : List (Name × Inst)}
    (matched : Matched program tree inserted token block i before before')
    (reliable : Reliable program.function oracle before) (is : before.rest = (n,inst) :: rest)
    {state : InPlace.Store} (ran : InPlace.exec oracle n inst before.state = some state) :
    ∃ token after', Run (constructed program.function tree inserted) (Pure.exec oracle)
        (fun _ => True) before' after' ∧
      Matched program tree inserted token block (i + 1) ⟨before.block,rest,state⟩ after' := by
  obtain ⟨rfl,entry,rest_,rest'⟩ := matched.next is
  have here : Before program tree inserted oracle token before.block i block inst before.state
      before'.state :=
    ⟨matched.found,entry,matched.reachable,matched.named,matched.stored,reliable _ _ _ is⟩
  obtain ⟨token',after',run,stored,named⟩ := here.follow renamable placed closed ran
  let remaining := ((translatedBody program.function tree inserted before.block block.body).drop
    (i + 1)).flatten
  refine ⟨token',⟨before.block,remaining,after'⟩,?_,matched.found,?_,rest_,rfl,rfl,matched.reachable,
    named,stored⟩
  · have same : before' = ⟨before.block,before'.rest,before'.state⟩ := by
      rw [← matched.block']
    rw [same,rest']
    exact run _ _
  · exact (List.getElem?_eq_some_iff.mp entry).1

theorem Matched.edge (unshared : Unshared program tree)
    (matched : Matched program tree inserted token block i before before') (is : before.rest = [])
    (ran : step program.function (InPlace.exec oracle) before = some after) :
    ∃ block after', Run (constructed program.function tree inserted) (Pure.exec oracle)
        (fun _ => True) before' after' ∧
      Matched program tree inserted token block 0 after after' := by
  obtain ⟨b,rest,state⟩ := before
  obtain ⟨b',rest',values⟩ := before'
  obtain ⟨found,_,_,rfl,_,reachable,named,stored⟩ := id matched
  obtain rfl : rest = [] := is
  obtain ⟨rfl,rfl⟩ : i = block.body.length ∧ rest' = [] := matched.last rfl
  obtain ⟨source,selector,targets,w,t,found',terminator,selected,chosen,entering⟩ := step_edge ran
  obtain rfl : block = source := Option.some.inj (found.symm.trans found')
  have edge : t ∈ program.function.successors b' := by
    rw [Function.successors_eq,found',Option.map_some,terminator]
    exact target_mem chosen
  obtain ⟨block',taken,found'',isTaken,rfl⟩ := enter_some entering
  have reachable' := reachable.successor edge
  have inBlocks := List.mem_of_getElem? found'
  have operand : ∀ n, selector = .name n → values.env n = (state.env n).map (RtValue.map token) := by
    rintro n rfl
    refine named.scalar_operand ((program.ssa.defined _ inBlocks).2.1 n ?_)
      ((program.scalars _ inBlocks).2.2.1 n _ terminator)
    simp [terminator,Terminator.names,Scalar.name?]
  have selected' : word values.env selector = some w := (word_map operand).trans selected
  obtain ⟨taken',isTaken'⟩ : ∃ taken', incomingValues
      (constructedBlock program.function tree inserted t block').phis b' values.env = some taken' :=
    incomingValues_some fun _ member => constructed_incoming_some edge found'' member
  have new := (constructed_block tree inserted b').trans (congrArg _ found')
  have new' := (constructed_block tree inserted t).trans (congrArg _ found'')
  have entered' := enter_eq new' isTaken'
  have terminator' : (constructedBlock program.function tree inserted b' block).terminator =
      .switch selector targets := by
    rw [constructedBlock_terminator reachable,terminator]
    rfl
  refine ⟨block',_,.single ⟨trivial,(step_enter new terminator' selected' chosen).trans entered'⟩,
    found'',Nat.zero_le _,rfl,rfl,constructedBlock_body reachable' _,reachable',?_,?_⟩
  · exact named.enter renamable placed closed reachable found edge found'' isTaken isTaken' unshared
  · exact Stored.enter renamable placed closed reachable found edge found'' named isTaken isTaken' stored

theorem Matched.step (unshared : Unshared program tree)
    (matched : Matched program tree inserted token block i before before')
    (reliable : Reliable program.function oracle before)
    (ran : step program.function (InPlace.exec oracle) before = some after) :
    ∃ token block i after', Run (constructed program.function tree inserted) (Pure.exec oracle)
        (fun _ => True) before' after' ∧
      Matched program tree inserted token block i after after' := by
  cases is : before.rest with
  | nil =>
    obtain ⟨block,after',run,matched⟩ := matched.edge renamable placed closed unshared is ran
    exact ⟨token,block,0,after',run,matched⟩
  | cons entry rest =>
    obtain ⟨n,inst⟩ := entry
    have same : before = ⟨before.block,(n,inst) :: rest,before.state⟩ := by
      rw [← is]
    rw [same] at ran
    obtain ⟨state,executed,rfl⟩ := step_instruction ran
    obtain ⟨token,after',run,matched⟩ :=
      matched.instruction renamable placed closed reliable is executed
    exact ⟨token,block,i + 1,after',run,matched⟩

theorem Matched.agrees (matched : Matched program tree inserted token block i before before') :
    Agrees program.function (constructed program.function tree inserted) token before before' := by
  have named := matched.named
  have new := (constructed_block tree inserted before.block).trans
    (congrArg _ matched.found)
  have walkable := renamable.walkable placed closed
  constructor
  · exact matched.block'
  · exact matched.stored.trace
  · exact fun n defined isScalar => named.scalar_operand defined isScalar
  · exact fun stamp content current held => matched.stored.value current held
  · intro n inst rest is
    obtain ⟨rfl,entry,_,rest'⟩ := matched.next is
    refine ⟨_,_,_,_,rfl,rest',fun x used => ?_,fun x used same => ?_⟩
    · exact named.operand renamable placed closed matched.found entry matched.reachable used
    · exact named.unrenamed_operand renamable matched.found entry used same
  · intro is
    obtain ⟨rfl,done⟩ := matched.last is
    refine ⟨done,_,block,_,matched.found,new,constructedBlock_terminator matched.reachable block,?_⟩
    intro x used
    have usable := program.ssa.terminator _ block matched.found _ used
    have variable_ := terminator_variable (List.mem_of_getElem? matched.found) used
    have ready : Ready program tree x (.before before.block block.body.length) :=
      ready_of_dominates variable_ (program.available_dominates tree
        (usable.2 x rfl matched.reachable))
    exact named.versions x variable_ (.returned matched.found used) _
      (nearest_of_ready placed walkable matched.reachable matched.found (Nat.le_refl _) ready)
  · intro is t edge block' found' n phi element member incoming
    obtain ⟨rfl,_⟩ := matched.last is
    obtain ⟨j,bound,at_⟩ := List.mem_iff_getElem.mp member
    have at' := (List.getElem?_eq_getElem bound).trans (congrArg some at_)
    obtain ⟨element',incoming',same⟩ := named.taken renamable placed closed matched.reachable
      matched.found edge found' at' incoming
    refine ⟨_,constructedPhi program.function tree inserted n phi,element',
      (constructed_block tree inserted t).trans (congrArg _ found'),?_,incoming',same⟩
    rw [constructedBlock_phis_eq]
    exact List.mem_append_left _ (List.mem_map.mpr ⟨_,member,rfl⟩)

omit renamable placed in
theorem Matched.start {state : InPlace.Store} (initial : InPlace.Initial state) :
    ∃ block, Matched program tree inserted Stamp.handle block 0 (start program.function state)
      (start (constructed program.function tree inserted) (InPlace.values state)) := by
  have nonempty := program.nonempty
  have found := List.getElem?_eq_getElem nonempty
  have new := (constructed_block tree inserted 0).trans (congrArg _ found)
  have entry : program.function.graph.Reachable 0 := ⟨_,.start⟩
  refine ⟨program.function.blocks[0],found,Nat.zero_le _,?_,rfl,?_,entry,?_,initial.stored⟩
  · simp [Memoir.start,found]
  · simp only [Memoir.start,new,Option.map_some,Option.getD_some,List.drop_zero]
    exact constructedBlock_body entry _
  · exact .start closed initial

end

/-- Every run in place is followed by the new function with value semantics. -/
theorem construct_preserves (program : Program) (tree : Tree program.function)
    (renamable : Renamable program tree) (unshared : Unshared program tree) (oracle : Oracle)
    {typed : Name → Bool} (types : typesFound tree typed = true)
    {state : InPlace.Store} (initial : InPlace.Initial state) {after : Config Stamp Object}
    (run : Run program.function (InPlace.exec oracle) (Reliable program.function oracle)
      (start program.function state) after) :
    ∃ result token after', construct program.function tree typed = some result ∧
      Run result (Pure.exec oracle) (fun _ => True) (start result (InPlace.values state)) after' ∧
      Agrees program.function result token after after' := by
  obtain ⟨inserted,found,placed,closed⟩ := placement tree renamable.reachable
  obtain ⟨block,matched⟩ := Matched.start closed initial
  have step : ∀ before after before', Reliable program.function oracle before →
      Memoir.step program.function (InPlace.exec oracle) before = some after →
      (∃ token block i, Matched program tree inserted token block i before before') →
      ∃ after', Run (constructed program.function tree inserted) (Pure.exec oracle) (fun _ => True)
          before' after' ∧ ∃ token block i, Matched program tree inserted token block i after after' := by
    intro before after before' reliable ran ⟨token,block,i,matched⟩
    obtain ⟨token,block,i,after',run,matched⟩ :=
      matched.step renamable placed closed unshared reliable ran
    exact ⟨after',run,token,block,i,matched⟩
  obtain ⟨after',run',token,block',i,matched'⟩ := Run.follow step ⟨_,_,_,matched⟩ run
  exact ⟨_,token,after',construct_eq found placed (renamable.walkable placed closed) types,run',
    matched'.agrees renamable placed closed⟩

/-- Collections for the first arguments, and zeros for the others. -/
def collections (contents : List (Content Stamp)) : InPlace.Store where
  env
    | .argument i => if i < contents.length then some (.reference ⟨i,0⟩) else some (.word 0)
    | _ => none
  defined
    | .argument i => if i < contents.length then some (.reference ⟨i,0⟩) else some (.word 0)
    | _ => none
  memory handle := (contents[handle]?).map fun content => ⟨0,content⟩
  next := contents.length
  trace := []

theorem collections_initial {contents : List (Content Stamp)}
    (scalars : ∀ content ∈ contents,content.references = []) : InPlace.Initial (collections contents) where
  env n := rfl
  named := by
    intro n value is stamp member
    cases n with
    | argument i =>
      simp only [collections] at is
      split_ifs at is with bound
      · obtain rfl := Option.some.inj is
        obtain rfl := List.mem_singleton.mp member
        refine ⟨bound,fun object found => ?_⟩
        exact Nat.zero_le _
      · obtain rfl := Option.some.inj is
        exact absurd member List.not_mem_nil
    | _ => exact absurd is (by simp [collections])
  handles := by
    intro handle object found
    obtain ⟨content,found,_⟩ := Option.map_eq_some_iff.mp found
    exact (List.getElem?_eq_some_iff.mp found).1
  contents := by
    intro handle object made stamp member
    obtain ⟨content,found,rfl⟩ := Option.map_eq_some_iff.mp made
    rw [scalars content (List.mem_of_getElem? found)] at member
    exact absurd member List.not_mem_nil

theorem tracked_argument {function : Function} {oracle : Oracle} {state : InPlace.Store} {n : Name}
    {inst : Inst} {m : Name} {stamp : Stamp} (operands : inst.mutated ++ inst.read = [.name m])
    (unrenamed : inst.unrenamed = [])
    (noRead : ∀ object key, inst ≠ .assocRead object key ∧ inst ≠ .assocGet object key)
    (noCall : ∀ callee collections scalars, inst ≠ .call callee collections scalars)
    (is : state.env m = some (.reference stamp)) (current : Current state stamp) :
    Tracked function oracle state n inst where
  current := by
    intro operand member stamp' found
    rw [operands,List.mem_singleton] at member
    simp only [member,reference,is,Option.some.injEq] at found
    exact found ▸ current
  unrenamed := by
    intro x member
    rw [unrenamed] at member
    exact absurd member List.not_mem_nil
  apart := by
    rintro x first last y toFirst rfl
    simp [Inst.mutated,Inst.read] at operands
  present := by
    rintro object key (same | same)
    · exact absurd same (noRead object key).1
    · exact absurd same (noRead object key).2
  replied := fun callee collections scalars same => absurd same (noCall callee collections scalars)

/-- The run through the writes. -/
theorem branchThenRead_run : ∃ after : Config Stamp Object,after.block = 3 ∧ after.rest = [] ∧
    Run branchThenRead (InPlace.exec fun _ => .none) (Reliable branchThenRead fun _ => .none)
      (start branchThenRead (collections [.sequence [.scalar 5],.sequence [.scalar 6],.sequence []])) after := by
  refine ⟨_,?_,?_,.head ⟨?_,rfl⟩ (.head ⟨?_,rfl⟩ (.head ⟨?_,rfl⟩ (.head ⟨?_,rfl⟩ (.head ⟨?_,rfl⟩
    (.single ⟨?_,rfl⟩)))))⟩
  · rfl
  · rfl
  · exact fun n inst rest is => absurd is.symm (List.cons_ne_nil _ _)
  · intro n inst rest is
    obtain ⟨⟨rfl,rfl⟩,rfl⟩ := List.cons.inj is
    exact tracked_argument rfl rfl (by simp) (by simp) rfl ⟨_,rfl,rfl⟩
  · intro n inst rest is
    obtain ⟨⟨rfl,rfl⟩,rfl⟩ := List.cons.inj is
    exact tracked_argument rfl rfl (by simp) (by simp) rfl ⟨_,rfl,rfl⟩
  · exact fun n inst rest is => absurd is.symm (List.cons_ne_nil _ _)
  · intro n inst rest is
    obtain ⟨⟨rfl,rfl⟩,rfl⟩ := List.cons.inj is
    exact tracked_argument rfl rfl (by simp) (by simp) rfl ⟨_,rfl,rfl⟩
  · intro n inst rest is
    obtain ⟨⟨rfl,rfl⟩,rfl⟩ := List.cons.inj is
    exact tracked_argument rfl rfl (by simp) (by simp) rfl ⟨_,rfl,rfl⟩

/-- In a block without successors, a live variable is used. -/
theorem used_of_live {function : Function} {x : Name} {b i : Nat} {block : BasicBlock}
    (found : function.blocks[b]? = some block) (last : function.successors b = [])
    (live : Live function x b i) : (∃ entry ∈ block.body,.name x ∈ entry.2.operands) ∨
      .name x ∈ block.terminator.operands := by
  induction live with
  | operand found' entry used =>
    obtain rfl := Option.some.inj (found.symm.trans found')
    exact .inl ⟨_,List.mem_of_getElem? entry,used⟩
  | next _ _ _ _ ih => exact ih found last
  | returned found' used =>
    obtain rfl := Option.some.inj (found.symm.trans found')
    exact .inr used
  | incoming _ edge _ _ _ => exact absurd (last ▸ edge) List.not_mem_nil
  | edge _ edge _ _ _ => exact absurd (last ▸ edge) List.not_mem_nil

theorem branch_unshared : Unshared branchProgram branchTree := by
  intro x _ a t _ _ _ already live
  have last : t = 3 := by
    rcases t with _ | _ | _ | _ | t
    · exact absurd already Bool.false_ne_true
    · exact absurd already Bool.false_ne_true
    · exact absurd already Bool.false_ne_true
    · rfl
    · exact absurd already Bool.false_ne_true
  subst last
  rcases used_of_live rfl rfl live with ⟨entry,member,used⟩ | returned
  · have operands : entry.2.operands = [.name (.phi 3 0)] ∨ entry.2.operands = [.name (.argument 0)] := by
      rcases List.mem_cons.mp member with rfl | member
      · exact .inl rfl
      · obtain rfl := List.mem_singleton.mp member
        exact .inr rfl
    rcases operands with same | same <;> rw [same,List.mem_singleton] at used <;>
      obtain rfl := Value.name.inj used
    · exact absurd already (by decide)
    · exact absurd already (by decide)
  · exact absurd returned List.not_mem_nil

theorem construct_preserves_branchThenRead : ∃ after result token after',after.block = 3 ∧ after.rest = [] ∧
    construct branchThenRead branchTree branchTyped = some result ∧
      Run result (Pure.exec fun _ => .none) (fun _ => True) (start result (InPlace.values
        (collections [.sequence [.scalar 5],.sequence [.scalar 6],.sequence []]))) after' ∧
      Agrees branchThenRead result token after after' := by
  obtain ⟨after,last,ended,run⟩ := branchThenRead_run
  obtain ⟨result,token,after',built,ran,agrees⟩ :=
    construct_preserves branchProgram branchTree branch_renamable branch_unshared (fun _ => .none)
      (by decide : typesFound branchTree branchTyped = true) (collections_initial (by simp [Content.references])) run
  exact ⟨after,result,token,after',last,ended,built,ran,agrees⟩

/-- An insertion, and a question for the key that was inserted. -/
def insertThenHas : Function where
  arguments := 1
  blocks := [⟨[],[(.inst 0 0,.mutAssocInsert (.name (.argument 0)) (.constant 7)),
    (.inst 0 1,.assocHas (.name (.argument 0)) (.constant 7))],.ret none⟩]
  valueIsCollectionType
    | .argument _ => true
    | _ => false

def insertThenHasTree : Tree insertThenHas := .acyclic insertThenHas.graph 1 [0] (by decide)

theorem insertThenHas_stale : ∃ (program : Program) (tree : Tree program.function) (typed : Name → Bool)
    (result : Function)
    (oracle : Oracle) (state : InPlace.Store) (after : Config Stamp Object)
    (after' : Config Nat (Content Nat)), construct program.function tree typed = some result ∧
      InPlace.Initial state ∧
      Run program.function (InPlace.exec oracle) (fun _ => True) (start program.function state) after ∧
      Run result (Pure.exec oracle) (fun _ => True) (start result (InPlace.values state)) after' ∧
      after.rest = [] ∧ after'.rest = [] ∧ after.state.env (.inst 0 1) = some (.word 1) ∧
      after'.state.env (.inst 0 1) = some (.word 0) :=
  ⟨insertThenHas.accepted insertThenHasTree (by decide),insertThenHasTree,fun _ => true,_,fun _ => .none,
    collections [.assoc []],_,_,rfl,collections_initial (by simp [Content.references]),.two rfl rfl,
    .two rfl rfl,rfl,rfl,rfl,rfl⟩

end Construction
end Memoir
