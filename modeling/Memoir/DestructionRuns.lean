import Memoir.DestructionSizes

/-! Each instruction with value semantics is followed by what destruction puts in its place. -/
namespace Memoir.Destruction
open Dominance

section
variable {program : SsaFunction} {tree : Construction.Tree program.function} {f : Value → Value}
  {object : Nat → Nat} {dead : List Nat} {b k : Nat} {n : Name} {inst new : Inst} {values : Pure.Store}
  {state : InPlace.Store} (before : Before program tree f object dead b k n inst values state)
include before

theorem Before.points {v : Value} {t : Nat} (used : v ∈ inst.operands)
    (found : reference values.env v = some t) : Points object state.env (f v) t := by
  refine before.named.points ?_ found
  rintro m rfl
  exact operand_available before.at_ before.reachable used

theorem Before.references {vs : List Value} {ts : List Nat} (used : ∀ v ∈ vs, v ∈ inst.operands)
    (found : vs.mapM (reference values.env) = some ts) :
    ∃ ss, (vs.map f).mapM (reference state.env) = some ss ∧ ss.map Stamp.handle = ts.map object := by
  induction vs generalizing ts with
  | nil =>
    obtain rfl := Option.some.inj found
    exact ⟨[],rfl,rfl⟩
  | cons v vs ih =>
    simp only [List.mapM_cons,Option.pure_def,Option.bind_eq_bind,Option.bind_eq_some_iff,
      Option.some.injEq] at found
    obtain ⟨t,head,ts,tail,rfl⟩ := found
    obtain ⟨s,is,handle⟩ := before.points (used v List.mem_cons_self) head
    obtain ⟨ss,rest,same⟩ := ih (fun v' member => used v' (List.mem_cons_of_mem _ member)) tail
    exact ⟨s :: ss,by simp [is,rest],by simp [handle,same]⟩

theorem Before.datum {e : Element} {d : Datum Nat} (written : inst.element = some e)
    (evaluated : Memoir.datum values.env e = some d) :
    ∃ d', Memoir.datum state.env (e.mapCollection f) = some d' ∧
      d'.map Stamp.handle = d.map object := by
  cases e with
  | scalar s =>
    simp only [Memoir.datum,Option.map_eq_some_iff] at evaluated
    obtain ⟨w,is,rfl⟩ := evaluated
    exact ⟨.scalar w,by simp [Element.mapCollection,Memoir.datum,before.named.word is],rfl⟩
  | collection v =>
    simp only [Memoir.datum,Option.map_eq_some_iff] at evaluated
    obtain ⟨t,is,rfl⟩ := evaluated
    have used : v ∈ inst.operands := by simp [Inst.operands,written,Element.collection?]
    obtain ⟨s,is',handle⟩ := before.points used is
    exact ⟨.collection s,by simp [Element.mapCollection,Memoir.datum,is'],by simp [Datum.map,handle]⟩

/-- The operation of the call, with the sizes for the end markers. -/
theorem Before.operation (sized : Sized inst values state.env) (lowering : lowerInst inst = some new)
    (plain : inst.isMut = false ∧ inst.isBackend = false)
    (notWithin : ∀ c first last toFirst, inst ≠ .seqSwapWithin c first last toFirst) {reply : Reply}
    {operation : Operation Nat} (found : inst.operation values.env reply = some operation)
    {mutated read : List Nat} {contents contents' : List (Content Nat)}
    (isMutated : inst.mutated.mapM (reference values.env) = some mutated)
    (isRead : inst.read.mapM (reference values.env) = some read)
    (held : mutated.mapM values.memory = some contents)
    (held' : read.mapM values.memory = some contents') :
    ∃ operation', (new.mapCollections f).operation state.env reply = some operation' ∧
      operation'.map Stamp.handle =
        (operation.atEnds (contents.map Content.length) (contents'.map Content.length)).map object := by
  have word : ∀ {s w}, Memoir.word values.env s = some w → Memoir.word state.env s = some w :=
    fun is => before.named.word is
  cases inst <;> simp only [Inst.isMut,Inst.isBackend,Bool.true_eq_false,false_and,and_false] at plain <;>
    simp only [lowerInst,Option.some.injEq,reduceCtorEq] at lowering <;> try subst lowering
  case scalar | deleteCollection => exact absurd found (by simp [Inst.operation])
  case seqSwapWithin c first last toFirst => exact absurd rfl (notWithin c first last toFirst)
  case call callee collections scalars =>
    simp only [Inst.operation,Option.pure_def,Option.bind_eq_bind,Option.bind_eq_some_iff,
      Option.some.injEq] at found
    obtain ⟨ws,evaluated,rfl⟩ := found
    exact ⟨.call callee ws reply,by simp [Inst.mapCollections,Inst.operation,
      before.named.words_list evaluated],rfl⟩
  all_goals
    simp only [Inst.operation,Option.pure_def,Option.bind_eq_bind,Option.bind_eq_some_iff,
      Option.some.injEq] at found
  case indexWrite value _ i =>
    obtain ⟨w,is,d,evaluated,rfl⟩ := found
    obtain ⟨d',evaluated',same⟩ := before.datum rfl evaluated
    exact ⟨.indexWrite w d',by simp [Inst.mapCollections,Inst.operation,word is,evaluated'],
      by simp [Operation.map,Operation.atEnds,same]⟩
  case assocWrite value _ i =>
    obtain ⟨w,is,d,evaluated,rfl⟩ := found
    obtain ⟨d',evaluated',same⟩ := before.datum rfl evaluated
    exact ⟨.assocWrite w d',by simp [Inst.mapCollections,Inst.operation,word is,evaluated'],
      by simp [Operation.map,Operation.atEnds,same]⟩
  case assocInsert | assocRemove | indexRead | assocRead | indexGet | assocGet | assocHas | seqAlloc =>
    obtain ⟨w,is,rfl⟩ := found
    have one : ∀ {s}, Memoir.word state.env s = some w → [s].mapM (Memoir.word state.env) = some [w] := by
      intro s is
      simp [is]
    exact ⟨_,by simp only [Inst.mapCollections,Inst.operation,one (word is)]; rfl,by rfl⟩
  case size | assocKeys | assocAlloc =>
    subst found
    exact ⟨_,rfl,rfl⟩
  case seqInsert value base i =>
    obtain ⟨w,is,d,evaluated,rfl⟩ := found
    obtain ⟨d',evaluated',same⟩ := before.datum rfl evaluated
    obtain ⟨t,found,rfl⟩ := mapM_singleton isMutated
    obtain ⟨c,at_,rfl⟩ := mapM_singleton held
    have index := sized 2 i base t c w (by simp [operandNumbers]) rfl found at_ is
    exact ⟨.seqInsert (some (w.getD c.length)) d',by simp [Inst.mapCollections,Inst.operation,index,evaluated'],
      by simp [Operation.map,Operation.atEnds,same]⟩
  case seqInsertSeq inserted base i =>
    obtain ⟨w,is,rfl⟩ := found
    obtain ⟨t,found,rfl⟩ := mapM_singleton isMutated
    obtain ⟨c,at_,rfl⟩ := mapM_singleton held
    have index := sized 2 i base t c w (by simp [operandNumbers]) rfl found at_ is
    exact ⟨.seqInsertSeq (some (w.getD c.length)),by simp [Inst.mapCollections,Inst.operation,index],
      by simp [Operation.map,Operation.atEnds]⟩
  case seqRemove base i j =>
    obtain ⟨first,isFirst,last,isLast,rfl⟩ := found
    obtain ⟨t,found,rfl⟩ := mapM_singleton isMutated
    obtain ⟨c,at_,rfl⟩ := mapM_singleton held
    have index := sized 1 i base t c first (by simp [operandNumbers]) rfl found at_ isFirst
    have index' := sized 2 j base t c last (by simp [operandNumbers]) rfl found at_ isLast
    exact ⟨.seqRemove (some (first.getD c.length)) (some (last.getD c.length)),
      by simp [Inst.mapCollections,Inst.operation,index,index'],
      by simp [Operation.map,Operation.atEnds]⟩
  case seqCopy copied i j =>
    obtain ⟨first,isFirst,last,isLast,rfl⟩ := found
    obtain ⟨t,found,rfl⟩ := mapM_singleton isRead
    obtain ⟨c,at_,rfl⟩ := mapM_singleton held'
    have index := sized 1 i copied t c first (by simp [operandNumbers]) rfl found at_ isFirst
    have index' := sized 2 j copied t c last (by simp [operandNumbers]) rfl found at_ isLast
    exact ⟨.seqCopy (some (first.getD c.length)) (some (last.getD c.length)),
      by simp [Inst.mapCollections,Inst.operation,index,index'],
      by simp [Operation.map,Operation.atEnds]⟩
  case seqSwap x i j y i' =>
    obtain ⟨first,isFirst,last,isLast,toFirst,isTo,rfl⟩ := found
    obtain ⟨t,t',found,found',rfl⟩ := mapM_pair isMutated
    obtain ⟨c,c',at_,at',rfl⟩ := mapM_pair held
    have index := sized 1 i x t c first (by simp [operandNumbers]) rfl found at_ isFirst
    have index' := sized 2 j x t c last (by simp [operandNumbers]) rfl found at_ isLast
    have index'' := sized 4 i' y t' c' toFirst (by simp [operandNumbers]) rfl found' at' isTo
    exact ⟨.seqSwap (some (first.getD c.length)) (some (last.getD c.length)) (some (toFirst.getD c'.length)),
      by simp [Inst.mapCollections,Inst.operation,index,index',index''],
      by simp [Operation.map,Operation.atEnds]⟩

theorem Before.tokens_nodup {mutated read : List Nat} (plain : inst.isMut = false ∧ inst.isBackend = false)
    (isMutated : inst.mutated.mapM (reference values.env) = some mutated)
    (isRead : inst.read.mapM (reference values.env) = some read) (mutates : mutated ≠ []) :
    (mutated ++ read).Nodup := by
  cases isSsa : inst.isSsa with
  | true =>
    have apart := before.linear.apart isSsa
    rwa [List.filterMap_append,mapM_filterMap isMutated,mapM_filterMap isRead] at apart
  | false =>
    cases inst <;> simp only [Inst.isMut,Inst.isBackend,Inst.isSsa,Bool.true_eq_false,false_and,
      and_false] at plain isSsa
    case assocRead | assocGet =>
      obtain ⟨t,_,rfl⟩ := mapM_singleton isMutated
      obtain rfl := Option.some.inj isRead
      exact List.nodup_singleton t
    all_goals
      obtain rfl := Option.some.inj isMutated
      exact absurd rfl mutates

theorem Before.live {mutated read : List Nat}
    (isMutated : inst.mutated.mapM (reference values.env) = some mutated)
    (isRead : inst.read.mapM (reference values.env) = some read) :
    ∀ t ∈ mutated ++ read, t ∉ dead := by
  intro t member
  rcases List.mem_append.mp member with member | member
  · obtain ⟨v,operand,found⟩ := mem_mapM isMutated member
    exact before.linear.live v (List.mem_append_left _ operand) t found
  · obtain ⟨v,operand,found⟩ := mem_mapM isRead member
    exact before.linear.live v (List.mem_append_right _ operand) t found

/-- On the objects of the operands, the call has the outcome of the operation. -/
theorem Before.ran (plain : inst.isMut = false ∧ inst.isBackend = false) {operation : Operation Nat}
    {operation' : Operation Stamp} {mutated read : List Nat} {contents contents' : List (Content Nat)}
    {outcome : Outcome Nat}
    (same : operation'.map Stamp.handle =
      (operation.atEnds (contents.map Content.length) (contents'.map Content.length)).map object)
    (isMutated : inst.mutated.mapM (reference values.env) = some mutated)
    (isRead : inst.read.mapM (reference values.env) = some read)
    (held : mutated.mapM values.memory = some contents)
    (held' : read.mapM values.memory = some contents')
    (run : operation.run contents contents' = some outcome) :
    ∃ ss rs outcome', (inst.mutated.map f).mapM (reference state.env) = some ss ∧
      (inst.read.map f).mapM (reference state.env) = some rs ∧ ss.map Stamp.handle = mutated.map object ∧
      InPlace.runOn state operation' ss rs = some outcome' ∧
      outcome'.map Stamp.handle = outcome.map object := by
  have live := before.live isMutated isRead
  obtain ⟨ss,isMutated',sameMutated⟩ := before.references
    (fun v member => List.mem_append_left _ (List.mem_append_left _ member)) isMutated
  obtain ⟨rs,isRead',sameRead⟩ := before.references
    (fun v member => List.mem_append_left _ (List.mem_append_right _ member)) isRead
  obtain ⟨cs,shown,sameContents⟩ := before.held.contents_of
    (fun t member => live t (List.mem_append_left _ member)) sameMutated held
  obtain ⟨cs',shown',sameContents'⟩ := before.held.contents_of
    (fun t member => live t (List.mem_append_right _ member)) sameRead held'
  have apart : ss ≠ [] → ((ss ++ rs).map Stamp.handle).Nodup := by
    intro some
    have mutates : mutated ≠ [] := by
      rintro rfl
      exact some (List.map_eq_nil_iff.mp sameMutated)
    rw [List.map_append,sameMutated,sameRead,← List.map_append]
    refine List.Nodup.map_on ?_ (before.tokens_nodup plain isMutated isRead mutates)
    have stored : ∀ t ∈ mutated ++ read, values.memory t ≠ none := by
      intro t member
      rcases List.mem_append.mp member with member | member
      · obtain ⟨c,_,is⟩ := mapM_of_mem held member
        simp [is]
      · obtain ⟨c,_,is⟩ := mapM_of_mem held' member
        simp [is]
    intro t member t' member' equal
    exact before.held.apart t t' (live t member) (live t' member') (stored t member) (stored t' member') equal
  have renamed : (operation'.run cs cs').map (Outcome.map Stamp.handle) = some (outcome.map object) := by
    rw [← Operation.run_map,same,sameContents,sameContents',Operation.run_map,Operation.run_atEnds,run]
    rfl
  obtain ⟨outcome',ran,sameOutcome⟩ := Option.map_eq_some_iff.mp renamed
  refine ⟨ss,rs,outcome',isMutated',isRead',sameMutated,?_,sameOutcome⟩
  rw [InPlace.runOn_apart apart shown shown']
  exact ran

end
end Memoir.Destruction
