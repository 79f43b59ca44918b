import Memoir.ConstructionPreserves
import Memoir.DestructionEdges

/-! Destruction keeps what a function does as long as it uses no version from which another has been made:
every such run with value semantics is followed by a run in place of the lowered function. -/
namespace Memoir

namespace Pure

structure Initial (state : Store) : Prop where
  arguments : ∀ n value, state.env n = some value →
    (∃ i, n = .argument i) ∧ ((∃ w, value = .word w) ∨ ∃ t, value = .reference t)
  named : ∀ n value, state.env n = some value → ∀ r ∈ value.references, r < state.next
  made : ∀ t content, state.memory t = some content →
    t < state.next ∧ ∀ r ∈ content.references, r < state.next

def object (t : Nat) : Stamp := ⟨t,0⟩

def objects (state : Store) : InPlace.Store where
  env n := (state.env n).map (RtValue.map object)
  defined n := (state.defined n).map (RtValue.map object)
  memory t := (state.memory t).map fun content => ⟨0,content.map object⟩
  next := state.next
  trace := state.trace

end Pure

namespace Destruction
open Dominance

def LinearStep (function : Function) (oracle : Oracle)
    (before after : Config Nat (Content Nat) × List Nat) : Prop :=
  step function (Pure.exec oracle) before.1 = some after.1 ∧
    match before.1.rest with
    | [] => after.2 = before.2
    | (_,inst) :: _ => Linear before.2 inst before.1.state ∧
      after.2 = superseded before.1.state inst ++ before.2

def LinearRun (function : Function) (oracle : Oracle) :
    Config Nat (Content Nat) × List Nat → Config Nat (Content Nat) × List Nat → Prop :=
  Relation.ReflTransGen (LinearStep function oracle)

theorem LinearStep.instruction {function : Function} {oracle : Oracle} {block : Nat} {n : Name} {inst : Inst}
    {rest : List (Name × Inst)} {state after : Pure.Store} {dead : List Nat}
    (linear : Linear dead inst state) (ran : Pure.exec oracle n inst state = some after) :
    LinearStep function oracle (⟨block,(n,inst) :: rest,state⟩,dead)
      (⟨block,rest,after⟩,superseded state inst ++ dead) :=
  ⟨by simp [step,ran],linear,rfl⟩

structure Matched (program : SsaFunction) (tree : Construction.Tree program.function) (f : Value → Value)
    (object : Nat → Nat) (dead : List Nat) (block : BasicBlock) (k : Nat)
    (before : Config Nat (Content Nat)) (before' : Config Stamp Object) : Prop where
  found : program.function.blocks[before.block]? = some block
  bound : k ≤ block.body.length
  rest : before.rest = block.body.drop k
  block' : before'.block = before.block
  rest' : before'.rest = ((block.body.drop k).flatMap (lowerEntry (endMarkers program.function tree))).map
    fun entry => (entry.1,entry.2.mapCollections f)
  reachable : program.function.graph.Reachable before.block
  versions : Versions program before.state.env
  held : Held object dead before.state before'.state
  named : Named program tree f object before.block k before.state.env before'.state.env

/-- Every word is the same, and so is the content of every value that is not superseded. -/
structure Agrees (function result : Function) (object : Nat → Nat) (dead : List Nat)
    (after : Config Nat (Content Nat)) (after' : Config Stamp Object) : Prop where
  block : after'.block = after.block
  calls : calls after'.state.trace = calls after.state.trace
  words : ∀ n w, after.state.env n = some (.word w) → after'.state.env n = some (.word w)
  contents : ∀ t content, t ∉ dead → after.state.memory t = some content →
    ∃ held, after'.state.memory (object t) = some held ∧ held.content.map Stamp.handle = content.map object
  ended : after.rest = [] → after'.rest = []
  returned : after.rest = [] → ∀ block v t, function.blocks[after.block]? = some block →
    block.terminator = .ret (some (.collection v)) → reference after.state.env v = some t →
      ∃ block' v' stamp, result.blocks[after.block]? = some block' ∧
        block'.terminator = .ret (some (.collection v')) ∧
          reference after'.state.env v' = some stamp ∧ stamp.handle = object t

section
variable {program : SsaFunction} {tree : Construction.Tree program.function} {f : Value → Value}
  {oracle : Oracle} {object : Nat → Nat} {dead : List Nat} {block : BasicBlock} {k : Nat}
  {before after : Config Nat (Content Nat)} {before' : Config Stamp Object}

theorem lowered_block {b : Nat} (found : program.function.blocks[b]? = some block) :
    (lowered program.function tree f).blocks[b]? = some (lowerBlock program.function tree f b block) := by
  simp [lowered,List.getElem?_mapIdx,found]

theorem lowerBlock_body {b : Nat} (reachable : program.function.graph.Reachable b) (block : BasicBlock) :
    (lowerBlock program.function tree f b block).body =
      (block.body.flatMap (lowerEntry (endMarkers program.function tree))).map fun entry =>
        (entry.1,entry.2.mapCollections f) := by
  simp [lowerBlock,(tree.preorder_reachable b).mpr reachable]

theorem Matched.last (matched : Matched program tree f object dead block k before before')
    (is : before.rest = []) : k = block.body.length ∧ before'.rest = [] := by
  have atEnd : block.body.length ≤ k := List.drop_eq_nil_iff.mp (matched.rest.symm.trans is)
  refine ⟨Nat.le_antisymm matched.bound atEnd,?_⟩
  rw [matched.rest',List.drop_eq_nil_of_le atEnd]
  rfl

theorem Matched.next {n : Name} {inst : Inst} {rest : List (Name × Inst)}
    (matched : Matched program tree f object dead block k before before')
    (is : before.rest = (n,inst) :: rest) : k < block.body.length ∧ block.body[k]? = some (n,inst) ∧
      rest = block.body.drop (k + 1) := by
  have split := matched.rest.symm.trans is
  rcases Nat.lt_or_ge k block.body.length with bound | ge
  · rw [List.drop_eq_getElem_cons bound] at split
    obtain ⟨head,tail⟩ := List.cons.inj split
    exact ⟨bound,(List.getElem?_eq_getElem bound).trans (congrArg some head),tail.symm⟩
  · rw [List.drop_eq_nil_of_le ge] at split
    exact absurd split (by simp)

variable (isSupported : supported program.function tree = true) (resolves : Resolves program tree f)
include isSupported resolves

theorem Matched.instruction {n : Name} {inst : Inst} {rest : List (Name × Inst)}
    (matched : Matched program tree f object dead block k before before')
    (linear : Linear dead inst before.state) (is : before.rest = (n,inst) :: rest) {state : Pure.Store}
    (ran : Pure.exec (environment oracle) n inst before.state = some state) :
    ∃ object' after', Run (lowered program.function tree f) (InPlace.exec (environment oracle))
        (fun _ => True) before' after' ∧
      Matched program tree f object' (superseded before.state inst ++ dead) block (k + 1)
        ⟨before.block,rest,state⟩ after' := by
  obtain ⟨bound,entry,rfl⟩ := matched.next is
  have at_ : At program n before.block k inst := ⟨block,matched.found,entry⟩
  have here : Before program tree f object dead before.block k n inst before.state before'.state :=
    ⟨resolves,at_,matched.reachable,linear,matched.held,matched.named⟩
  have plain := program.source block (List.mem_of_getElem? matched.found) n inst
    (List.mem_of_getElem? entry)
  obtain ⟨state',run,object',held,named⟩ := here.follow isSupported oracle plain ran
  refine ⟨object',⟨before.block,((block.body.drop (k + 1)).flatMap
    (lowerEntry (endMarkers program.function tree))).map fun entry => (entry.1,entry.2.mapCollections f),
      state'⟩,?_,matched.found,bound,rfl,rfl,rfl,matched.reachable,matched.versions.next at_ ran,held,named⟩
  have same : before' = ⟨before.block,before'.rest,before'.state⟩ := by
    rw [← matched.block']
  obtain ⟨_,isEntry⟩ := List.getElem?_eq_some_iff.mp entry
  have split : block.body.drop k = (n,inst) :: block.body.drop (k + 1) := by
    rw [List.drop_eq_getElem_cons bound,isEntry]
  rw [same,matched.rest',split,List.flatMap_cons,List.map_append]
  exact run _ _

theorem Matched.edge (matched : Matched program tree f object dead block k before before')
    (is : before.rest = [])
    (ran : step program.function (Pure.exec (environment oracle)) before = some after) :
    ∃ block after', Run (lowered program.function tree f) (InPlace.exec (environment oracle))
        (fun _ => True) before' after' ∧ Matched program tree f object dead block 0 after after' := by
  obtain ⟨b,rest,values⟩ := before
  obtain ⟨b',rest',state⟩ := before'
  obtain ⟨found,_,_,rfl,_,reachable,versions,held,named⟩ := id matched
  obtain rfl : rest = [] := is
  obtain ⟨rfl,rfl⟩ : k = block.body.length ∧ rest' = [] := matched.last rfl
  obtain ⟨source,selector,targets,w,t,found',terminator,selected,chosen,entering⟩ := step_edge ran
  obtain rfl : block = source := Option.some.inj (found.symm.trans found')
  have edge : t ∈ program.function.successors b' := by
    rw [Construction.Function.successors_eq,found',Option.map_some,terminator]
    exact target_mem chosen
  obtain ⟨block',taken,found'',isTaken,rfl⟩ := enter_some entering
  obtain ⟨taken',isTaken'⟩ := lowered_taken (f := f) isTaken state.env
  have terminator' : (lowerBlock program.function tree f b' block).terminator =
      .switch selector targets := by
    simp [lowerBlock,terminator,Terminator.mapCollections]
  have new : (lowered program.function tree f).blocks[t]? =
      some (lowerBlock program.function tree f t block') := lowered_block found''
  have entered' := enter_eq new isTaken'
  refine ⟨block',_,.single ⟨trivial,(step_enter (lowered_block found) terminator' (named.word selected)
    chosen).trans entered'⟩,found'',Nat.zero_le _,rfl,rfl,lowerBlock_body (reachable.successor edge) _,
      reachable.successor edge,versions.enter found'' isTaken,?_,?_⟩
  · exact held.enter isSupported resolves versions reachable found found'' named isTaken isTaken'
  · exact named.enter isSupported resolves versions reachable found edge found'' isTaken isTaken'

theorem Matched.step {dead' : List Nat}
    (matched : Matched program tree f object dead block k before before')
    (ran : LinearStep program.function (environment oracle) (before,dead) (after,dead')) :
    ∃ object' block' k' after', Run (lowered program.function tree f) (InPlace.exec (environment oracle))
        (fun _ => True) before' after' ∧
      Matched program tree f object' dead' block' k' after after' := by
  obtain ⟨stepped,linear⟩ := ran
  cases is : before.rest with
  | nil =>
    rw [is] at linear
    obtain rfl : dead' = dead := linear
    obtain ⟨block',after',run,matched'⟩ := matched.edge isSupported resolves is stepped
    exact ⟨object,block',0,after',run,matched'⟩
  | cons entry rest =>
    obtain ⟨n,inst⟩ := entry
    rw [is] at linear
    obtain ⟨linear,rfl⟩ := linear
    have same : before = ⟨before.block,(n,inst) :: rest,before.state⟩ := by
      rw [← is]
    rw [same] at stepped
    obtain ⟨state,executed,rfl⟩ := step_instruction stepped
    obtain ⟨object',after',run,matched'⟩ := matched.instruction isSupported resolves linear is executed
    exact ⟨object',block,k + 1,after',run,matched'⟩

theorem Matched.run {dead' : List Nat}
    (matched : Matched program tree f object dead block k before before')
    (ran : LinearRun program.function (environment oracle) (before,dead) (after,dead')) :
    ∃ object' block' k' after', Run (lowered program.function tree f) (InPlace.exec (environment oracle))
        (fun _ => True) before' after' ∧
      Matched program tree f object' dead' block' k' after after' := by
  generalize is : (after,dead') = last at ran
  induction ran generalizing after dead' with
  | refl =>
    obtain ⟨rfl,rfl⟩ := Prod.mk.inj is
    exact ⟨object,block,k,before',.refl,matched⟩
  | @tail middle _ _ stepped ih =>
    subst is
    obtain ⟨object₁,block₁,k₁,middle',run,matched₁⟩ := ih rfl
    obtain ⟨object',block',k',after',rest,matched'⟩ := matched₁.step isSupported resolves stepped
    exact ⟨object',block',k',after',run.trans rest,matched'⟩

omit isSupported resolves in
theorem Matched.agrees (matched : Matched program tree f object dead block k before before') :
    Agrees program.function (lowered program.function tree f) object dead before before' where
  block := matched.block'
  calls := matched.held.traced
  words := matched.named.words
  contents := matched.held.contents
  ended := fun is => (matched.last is).2
  returned := by
    intro is block' v t found terminator evaluated
    obtain rfl : block = block' := Option.some.inj (matched.found.symm.trans found)
    obtain ⟨rfl,_⟩ := matched.last is
    obtain ⟨stamp,points,handle⟩ := matched.named.points (v := v) (t := t) (by
      rintro m rfl
      refine (program.ssa.terminator _ block found _ ?_).2 m rfl matched.reachable
      simp [terminator,Terminator.operands,Element.collection?]) evaluated
    refine ⟨_,f v,stamp,lowered_block found,?_,points,handle⟩
    simp [lowerBlock,terminator,Terminator.mapCollections,Element.mapCollection]

omit isSupported resolves in
theorem Held.start {state : Pure.Store} (initial : Pure.Initial state) :
    Held id [] state (Pure.objects state) where
  made := initial.made
  named := initial.named
  superseded := fun _ member => absurd member List.not_mem_nil
  handles := fun _ bound => bound
  contents := by
    intro t content _ found
    refine ⟨⟨0,content.map Pure.object⟩,by simp [Pure.objects,found],?_⟩
    rw [Content.map_map]
    rfl
  apart := fun _ _ _ _ _ _ same => same
  traced := rfl

omit isSupported in
theorem Named.start {state : Pure.Store} (initial : Pure.Initial state) :
    Named program tree f id 0 0 state.env (Pure.objects state).env := by
  have defined : ∀ {n b k inst}, At program n b k inst → state.env n = none := by
    intro n b k inst at_
    refine Option.eq_none_iff_forall_not_mem.mpr fun value is => ?_
    obtain ⟨i,same⟩ := (initial.arguments n value is).1
    exact at_.not_argument i same
  constructor
  · intro n w is
    simp [Pure.objects,is,RtValue.map]
  · intro n t _ is
    have none : ∀ v, ¬ Becomes program n v := by
      intro v becomes
      obtain ⟨_,_,_,at_⟩ := becomes.site
      exact absurd ((defined at_).symm.trans is) (by simp)
    rw [resolves.other none]
    exact ⟨Pure.object t,by simp [reference,Pure.objects,is,RtValue.map],rfl⟩
  · intro n isMarker value is
    obtain ⟨_,_,_,at_⟩ := mem_endMarkers.mp isMarker
    exact absurd ((defined at_).symm.trans is) (by simp)
  · intro n isMarker stamp
    obtain ⟨_,_,_,at_⟩ := mem_endMarkers.mp isMarker
    simp [Pure.objects,defined at_]
  · intro n is
    rcases (initial.arguments n _ is).2 with ⟨_,same⟩ | ⟨_,same⟩ <;> exact absurd same (by simp)
  · intro n x y is
    rcases (initial.arguments n _ is).2 with ⟨_,same⟩ | ⟨_,same⟩ <;> exact absurd same (by simp)

omit isSupported in
theorem Matched.start {state : Pure.Store} (initial : Pure.Initial state) :
    ∃ block, Matched program tree f id [] block 0 (start program.function state)
      (start (lowered program.function tree f) (Pure.objects state)) := by
  have nonempty := program.nonempty
  have found := List.getElem?_eq_getElem nonempty
  have entry : program.function.graph.Reachable 0 := ⟨_,.start⟩
  refine ⟨program.function.blocks[0],found,Nat.zero_le _,?_,rfl,?_,entry,?_,.start initial,
    .start resolves initial⟩
  · simp [Memoir.start,found]
  · simp only [Memoir.start,lowered_block found,Option.map_some,Option.getD_some,List.drop_zero]
    exact lowerBlock_body entry _
  · intro n v becomes value is
    obtain ⟨_,_,_,at_⟩ := becomes.site
    obtain ⟨i,same⟩ := (initial.arguments n value is).1
    exact absurd same (at_.not_argument i)

end

section
variable {read n : Name} {b k : Nat} {block : BasicBlock} {inst : Inst}

end

end Destruction
end Memoir
