import Memoir.ConstructionEdges
import Memoir.DestructionFollows

/-! Along an edge of the graph, the PHI nodes of the lowered function take the objects of what those of the
SSA function take. -/
namespace Memoir

section
variable {ρ μ : Type} {s : Nat} {state : State ρ μ} {phis : List (Name × Phi)}
  {taken : List (Name × Option (RtValue ρ))} {n : Name}
  (isTaken : incomingValues phis s state.env = some taken)
include isTaken

theorem entered_env_other (absent : n ∉ phis.map Prod.fst) :
    (entered state taken).env n = state.env n := by
  have none : taken.lookup n = none := by
    rw [incomingValues_lookup isTaken,Construction.lookup_names absent]
    rfl
  simp [entered,none]

theorem entered_env_phi (member : n ∈ phis.map Prod.fst) : ∃ phi element, phis.lookup n = some phi ∧
    phi.incoming.lookup s = some element ∧ (entered state taken).env n = evaluate state.env element := by
  obtain ⟨phi,is⟩ : ∃ phi, phis.lookup n = some phi := by
    refine Option.ne_none_iff_exists'.mp fun none => ?_
    obtain ⟨entry,inPhis,rfl⟩ := List.mem_map.mp member
    exact absurd (List.lookup_eq_none_iff.mp none entry inPhis) (by simp)
  obtain ⟨_,_,each⟩ := Destruction.mapM_of_mem isTaken (Construction.mem_of_lookup is)
  simp only [Option.pure_def,Option.bind_eq_bind,Option.bind_eq_some_iff] at each
  obtain ⟨element,incoming,_⟩ := each
  have lookup : taken.lookup n = some (evaluate state.env element) := by
    rw [incomingValues_lookup isTaken,is,Option.bind_some,incoming]
    rfl
  exact ⟨phi,element,is,incoming,by simp [entered,lookup]⟩

end

namespace Destruction
open Dominance

section
variable {program : SsaFunction} {tree : Construction.Tree program.function} {f : Value → Value}
  {object : Nat → Nat} {dead : List Nat} {b k s t : Nat} {n m : Name} {inst : Inst}

theorem onlyUsers_phi {function : Function} {allowed : Inst → Bool}
    (only : onlyUsers function n allowed = true) {block : BasicBlock} (inBlocks : block ∈ function.blocks)
    {phi : Phi} (member : (m,phi) ∈ block.phis) {element : Element}
    (incoming : (s,element) ∈ phi.incoming) : element.name? ≠ some n := by
  simp only [onlyUsers,List.all_eq_true,Bool.and_eq_true] at only
  simpa using (only block inBlocks).1.1 (m,phi) member (s,element) incoming

theorem supported_pair (isSupported : supported program.function tree = true)
    (reachable : program.function.graph.Reachable b) {x y : Value} {first last toFirst : Scalar}
    (at_ : At program n b k (.seqSwap x first last y toFirst)) : ∃ allowed,
      onlyUsers program.function n allowed = true :=
  ⟨_,List.all_eq_true.mp isSupported (n,_) (mem_visited.mpr ⟨b,k,reachable,at_⟩)⟩

/-- What is coalesced has a collection type. -/
theorem Becomes.collection {v : Value} (becomes : Becomes program n v) :
    program.function.valueIsCollectionType n = true := by
  cases becomes with
  | @written b k inst _ at_ reachable operand =>
    obtain ⟨block,found,entry⟩ := at_
    refine program.results block (List.mem_of_getElem? found) n _ (List.mem_of_getElem? entry) ?_ ?_ ?_ ?_
    · cases inst <;> simp only [coalescedOperand,reduceCtorEq] at operand
      all_goals rfl
    · rintro x first last y toFirst rfl
      exact absurd operand (by simp [coalescedOperand])
    · rintro v rfl
      exact absurd operand (by simp [coalescedOperand])
    · rintro rfl
      exact absurd operand (by simp [coalescedOperand])
  | extracted at_ _ _ =>
    obtain ⟨block,found,entry⟩ := at_
    exact program.results block (List.mem_of_getElem? found) n _ (List.mem_of_getElem? entry) rfl (by simp)
      (by simp) (by simp)

/-- What is coalesced is a collection in every run. -/
def Versions (program : SsaFunction) (env : Env Nat) : Prop :=
  ∀ n v, Becomes program n v → ∀ value, env n = some value → ∃ t, value = .reference t

/-- Of an instruction, with its own name. -/
theorem Versions.next {oracle : Oracle} {values after : Pure.Store} (versions : Versions program values.env)
    (at_ : At program n b k inst) (ran : Pure.exec oracle n inst values = some after) :
    Versions program after.env := by
  have allocated : ∀ (contents : List (Content Nat)) (state : Pure.Store),
      (Pure.allocate state contents).1.env = state.env := by
    intro contents
    induction contents with
    | nil => exact fun _ => rfl
    | cons content contents ih => exact fun state => ih _
  have bound : ∀ {state : Pure.Store} {value : RtValue Nat}, state.env = values.env →
      ((∃ v, Becomes program n v) → ∃ t, value = .reference t) → Versions program (state.bind n value).env := by
    intro state value same own m v becomes value' is
    by_cases here : m = n
    · subst here
      obtain rfl := Option.some.inj ((State.bind_env_self _ _ _).symm.trans is)
      exact own ⟨v,becomes⟩
    · rw [State.bind_env_ne _ _ here,same] at is
      exact versions m v becomes value' is
  rcases Pure.exec_some ran with ⟨function,operands,words,rfl,_,rfl⟩ | ⟨rfl,rfl⟩ |
    ⟨pair,second,x,y,rfl,_,rfl⟩ | ⟨kind,v,t,rfl,_,rfl⟩ | ⟨v,t,content,rfl,_,_,rfl⟩ |
    ⟨operation,mutated,read,contents,contents',outcome,found,_,_,_,_,run,same⟩
  · exact bound rfl fun ⟨v,becomes⟩ => absurd becomes (not_becomes at_ rfl (by simp) v)
  · exact bound rfl fun ⟨v,becomes⟩ => absurd becomes (not_becomes at_ rfl (by simp) v)
  · exact bound rfl fun _ => ⟨_,rfl⟩
  · exact bound rfl fun _ => ⟨_,rfl⟩
  · exact versions
  · cases write : isWrite inst with
    | true =>
      obtain ⟨_,c,rfl,rfl⟩ := Operation.writes_outcome (isWrite_writes write found) run
      rw [same,(isWrite_shape write).1]
      exact bound rfl fun _ => ⟨_,rfl⟩
    | false =>
      have plain : ∀ v, ¬ Becomes program n v := by
        refine not_becomes at_ (coalescedOperand_other write found) ?_
        rintro pair second rfl
        exact absurd found (by simp [Inst.operation])
      rw [same]
      unfold Pure.bindResult
      split
      · exact bound (allocated _ _) fun _ => ⟨_,rfl⟩
      · exact bound (allocated _ _) fun ⟨v,becomes⟩ => absurd becomes (plain v)
      · exact bound (allocated _ _) fun ⟨v,becomes⟩ => absurd becomes (plain v)
      · intro m v becomes value is
        exact versions m v becomes value ((congrFun (allocated _ _) m).symm.trans is)

end

section
variable {program : SsaFunction} {tree : Construction.Tree program.function} {f : Value → Value}
  {object : Nat → Nat} {dead : List Nat} {s t : Nat} {n : Name} {source block : BasicBlock}
  {values : Pure.Store} {state : InPlace.Store} {taken : List (Name × Option (RtValue Nat))}
  {taken' : List (Name × Option (RtValue Stamp))}
  (isSupported : supported program.function tree = true) (resolves : Resolves program tree f)
  (versions : Versions program values.env) (reachable : program.function.graph.Reachable s)
  (found : program.function.blocks[s]? = some source) (edge : t ∈ program.function.successors s)
  (found' : program.function.blocks[t]? = some block)
  (named : Named program tree f object s source.body.length values.env state.env)
include isSupported resolves versions reachable found found' named

/-- An incoming value is a word or a collection, on both machines. -/
theorem Named.incoming {phi : Phi} {element : Element} {value : RtValue Nat} (member : (n,phi) ∈ block.phis)
    (incoming : phi.incoming.lookup s = some element)
    (evaluated : evaluate values.env element = some value) :
    (∃ w, value = .word w ∧ evaluate state.env (element.mapCollection f) = some (.word w)) ∨
      ∃ r stamp, value = .reference r ∧ (∃ m, values.env m = some (.reference r)) ∧
        evaluate state.env (element.mapCollection f) = some (.reference stamp) ∧ stamp.handle = object r := by
  have inBlocks := List.mem_of_getElem? found'
  have inIncoming := Construction.mem_of_lookup incoming
  have noPair : ∀ {m x y}, element.name? = some m → values.env m ≠ some (.pair x y) := by
    intro m x y is isPair
    obtain ⟨_,_,_,_,_,_,_,reachable',at_,_⟩ := named.pairs m x y isPair
    obtain ⟨allowed,only⟩ := supported_pair isSupported reachable' at_
    exact onlyUsers_phi only inBlocks member inIncoming is
  have noMarker : ∀ {m}, element.name? = some m → values.env m ≠ some .endOfSequence := by
    intro m is isMarker
    exact onlyUsers_phi (supported_marker isSupported (named.marked m isMarker)).2 inBlocks member inIncoming
      is
  have own : ∀ {m}, (∀ v, ¬ Becomes program m v) → f (.name m) = .name m := resolves.other
  rcases element with (w | m) | (m | _ | _)
  · exact .inl ⟨w,(Option.some.inj evaluated).symm,rfl⟩
  · have at_ : values.env m = some value := evaluated
    cases value with
    | word w => exact .inl ⟨w,rfl,named.words m w at_⟩
    | reference r =>
      have isScalar := program.scalars block inBlocks n phi member s m inIncoming
      have none : ∀ v, ¬ Becomes program m v := fun v becomes =>
        absurd (isScalar.symm.trans becomes.collection) (by simp)
      obtain ⟨stamp,is,handle⟩ := named.references m r (.inl none) at_
      rw [own none] at is
      obtain ⟨_,same,is⟩ := reference_env is
      obtain rfl := Value.name.inj same
      exact .inr ⟨r,stamp,rfl,⟨m,at_⟩,is,handle⟩
    | pair x y => exact absurd at_ (noPair rfl)
    | endOfSequence => exact absurd at_ (noMarker rfl)
  · have at_ : values.env m = some value := evaluated
    cases value with
    | word w =>
      have none : ∀ v, ¬ Becomes program m v := by
        intro v becomes
        obtain ⟨r,isReference⟩ := versions m v becomes _ at_
        exact absurd isReference (by simp)
      refine .inl ⟨w,rfl,?_⟩
      rw [Element.mapCollection,own none]
      exact named.words m w at_
    | reference r =>
      have usable := program.ssa.incoming block inBlocks n phi member s _ inIncoming source found
      obtain ⟨stamp,is,handle⟩ := named.references m r (.inr (usable.2 m rfl reachable)) at_
      obtain ⟨m',same,is⟩ := reference_env is
      refine .inr ⟨r,stamp,rfl,⟨m,at_⟩,?_,handle⟩
      rw [Element.mapCollection,same]
      exact is
    | pair x y => exact absurd at_ (noPair rfl)
    | endOfSequence => exact absurd at_ (noMarker rfl)
  · exact absurd evaluated (by simp [evaluate])
  · exact absurd evaluated (by simp [evaluate])

/-- The PHI nodes of a block of the lowered function. -/
def loweredPhis (f : Value → Value) (block : BasicBlock) : List (Name × Phi) :=
  block.phis.map fun entry => (entry.1,entry.2.mapCollections f)

omit isSupported resolves versions reachable found found' named in
theorem mapCollections_lookup (phi : Phi) : (phi.mapCollections f).incoming.lookup s =
    (phi.incoming.lookup s).map (Element.mapCollection f) :=
  lookup_map_value (fun _ => Element.mapCollection f) phi.incoming s

variable (isTaken : incomingValues block.phis s values.env = some taken)
  (isTaken' : incomingValues (loweredPhis f block) s state.env = some taken')
include isTaken

omit isSupported resolves versions reachable found found' named in
theorem lowered_taken (env : Env Stamp) :
    ∃ taken', incomingValues (loweredPhis f block) s env = some taken' := by
  refine incomingValues_some fun entry member => ?_
  obtain ⟨old,inPhis,rfl⟩ := List.mem_map.mp member
  obtain ⟨_,_,each⟩ := mapM_of_mem isTaken inPhis
  simp only [Option.pure_def,Option.bind_eq_bind,Option.bind_eq_some_iff] at each
  obtain ⟨element,incoming,_⟩ := each
  rw [mapCollections_lookup,incoming]
  rfl

include isTaken'

theorem Named.phi (member : n ∈ block.phis.map Prod.fst) {value : RtValue Nat}
    (is : (entered values taken).env n = some value) :
    (∃ w, value = .word w ∧ (entered state taken').env n = some (.word w)) ∨
      ∃ r stamp, value = .reference r ∧ (∃ m, values.env m = some (.reference r)) ∧
        (entered state taken').env n = some (.reference stamp) ∧ stamp.handle = object r := by
  obtain ⟨phi,element,at_,incoming,same⟩ := entered_env_phi isTaken member
  have member' : n ∈ (loweredPhis f block).map Prod.fst := by
    rw [loweredPhis,List.map_map]
    exact member
  obtain ⟨phi',element',at',incoming',same'⟩ := entered_env_phi isTaken' member'
  rw [loweredPhis,lookup_map_value (fun _ => Phi.mapCollections f),at_] at at'
  obtain rfl := Option.some.inj at'
  rw [mapCollections_lookup,incoming] at incoming'
  obtain rfl := Option.some.inj incoming'
  rw [same']
  rw [same] at is
  exact named.incoming isSupported resolves versions reachable found found'
    (Construction.mem_of_lookup at_) incoming is

include edge

/-- On entering a block. -/
theorem Named.enter : Named program tree f object t 0 (entered values taken).env
    (entered state taken').env := by
  have phi := fun {n : Name} (member : n ∈ block.phis.map Prod.fst) {value : RtValue Nat}
    (is : (entered values taken).env n = some value) =>
      named.phi isSupported resolves versions reachable found found' isTaken isTaken' member is
  have other : ∀ {n}, n ∉ block.phis.map Prod.fst → (entered values taken).env n = values.env n :=
    entered_env_other isTaken
  have other' : ∀ {n}, n ∉ block.phis.map Prod.fst → (entered state taken').env n = state.env n := by
    intro n absent
    refine entered_env_other isTaken' ?_
    rw [loweredPhis,List.map_map]
    exact absent
  have reachable' := reachable.successor edge
  have points : ∀ {v r}, Points object state.env v r → (∀ m, v = .name m → m ∉ block.phis.map Prod.fst) →
      Points object (entered state taken').env v r := by
    intro v r points outside
    refine points.same (fun m is => ?_) rfl
    unfold SameHandles
    rw [other' (outside m is)]
  have marker : ∀ {n}, n ∈ endMarkers program.function tree → n ∉ block.phis.map Prod.fst := by
    intro n isMarker
    obtain ⟨_,_,_,at_⟩ := mem_endMarkers.mp isMarker
    exact at_.not_phi found'
  constructor
  · intro n w is
    by_cases member : n ∈ block.phis.map Prod.fst
    · rcases phi member is with ⟨w',same,is'⟩ | ⟨_,_,same,_⟩
      · rw [is',RtValue.word.inj same]
      · exact absurd same (by simp)
    · rw [other member] at is
      rw [other' member]
      exact named.words n w is
  · intro n r old is
    by_cases member : n ∈ block.phis.map Prod.fst
    · have none : ∀ v, ¬ Becomes program n v := by
        intro v becomes
        obtain ⟨_,_,_,at_⟩ := becomes.site
        exact at_.not_phi found' member
      rw [resolves.other none]
      rcases phi member is with ⟨_,same,_⟩ | ⟨r',stamp,same,_,is',handle⟩
      · exact absurd same (by simp)
      · obtain rfl := RtValue.reference.inj same
        exact ⟨stamp,by simp [reference,is'],handle⟩
    · rw [other member] at is
      refine points (named.references n r (old.imp_right fun available =>
        available_edge found found' edge available member) is) ?_
      rintro m same phi
      refine resolves.apart_phi found' phi reachable' ?_ old same
      rintro rfl
      exact member phi
  · intro n isMarker value is
    rw [other (marker isMarker)] at is
    exact named.markers n isMarker value is
  · intro n isMarker stamp
    rw [other' (marker isMarker)]
    exact named.sizes n isMarker stamp
  · intro n is
    by_cases member : n ∈ block.phis.map Prod.fst
    · rcases phi member is with ⟨_,same,_⟩ | ⟨_,_,same,_⟩ <;> exact absurd same (by simp)
    · rw [other member] at is
      exact named.marked n is
  · intro n x y is
    by_cases member : n ∈ block.phis.map Prod.fst
    · rcases phi member is with ⟨_,same,_⟩ | ⟨_,_,same,_⟩ <;> exact absurd same (by simp)
    · rw [other member] at is
      obtain ⟨b,k,u,first,last,v,toFirst,above,at_,operands⟩ := named.pairs n x y is
      refine ⟨b,k,u,first,last,v,toFirst,above,at_,fun available => ?_⟩
      have operand : ∀ {w}, w ∈ Inst.operands (.seqSwap u first last v toFirst) → ∀ m, f w = .name m →
          m ∉ block.phis.map Prod.fst := by
        rintro w used m same phi
        obtain ⟨w,rfl⟩ := resolves.name same
        have usable := operand_available at_ above used
        refine resolves.apart_phi found' phi reachable' ?_
          (.inr (available_trans at_ available usable reachable')) same
        rintro rfl
        exact at_.above_phi found' reachable' available usable phi
      have before := operands (available_edge found found' edge available member)
      exact ⟨points before.1 (operand (by simp [Inst.operands,Inst.mutated])),
        points before.2 (operand (by simp [Inst.operands,Inst.mutated]))⟩

omit edge in
theorem Held.enter (held : Held object dead values state) :
    Held object dead (entered values taken) (entered state taken') where
  made := held.made
  named := by
    intro n value is
    by_cases member : n ∈ block.phis.map Prod.fst
    · rcases named.phi isSupported resolves versions reachable found found' isTaken isTaken' member is with
        ⟨w,rfl,_⟩ | ⟨r,_,rfl,⟨m,at_⟩,_⟩
      · exact fun r member => absurd member List.not_mem_nil
      · exact held.named m _ at_
    · rw [entered_env_other isTaken member] at is
      exact held.named n value is
  superseded := held.superseded
  handles := held.handles
  contents := held.contents
  apart := held.apart
  traced := held.traced

end

section
variable {program : SsaFunction} {s t : Nat} {block : BasicBlock} {values : Pure.Store}
  {taken : List (Name × Option (RtValue Nat))}

theorem Versions.enter (versions : Versions program values.env)
    (found' : program.function.blocks[t]? = some block)
    (isTaken : incomingValues block.phis s values.env = some taken) :
    Versions program (entered values taken).env := by
  intro n v becomes value is
  obtain ⟨_,_,_,at_⟩ := becomes.site
  rw [entered_env_other isTaken (at_.not_phi found')] at is
  exact versions n v becomes value is

end
end Destruction
end Memoir
