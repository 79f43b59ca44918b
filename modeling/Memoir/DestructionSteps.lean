import Memoir.DestructionRuns

/-! What a step makes of the objects and the names: writes and swaps supersede their operands, reads and
allocations do not, and end markers and parts of pairs need no step. -/
namespace Memoir.Destruction
open Dominance

theorem not_becomes {program : SsaFunction} {n : Name} {b k : Nat} {inst : Inst} (at_ : At program n b k inst)
    (plain : coalescedOperand inst = none) (notPart : ∀ pair second, inst ≠ .extractValue pair second)
    (v : Value) : ¬ Becomes program n v := by
  intro becomes
  cases becomes with
  | written at' _ operand =>
    obtain ⟨_,_,rfl⟩ := at_.unique at'
    exact absurd (plain.symm.trans operand) (by simp)
  | extracted at' _ _ =>
    obtain ⟨_,_,rfl⟩ := at_.unique at'
    exact notPart _ _ rfl

theorem Held.same_dead {object : Nat → Nat} {dead dead' : List Nat} {values : Pure.Store}
    {state : InPlace.Store} (held : Held object dead values state) (same : ∀ t, t ∈ dead' ↔ t ∈ dead) :
    Held object dead' values state where
  made := held.made
  named := held.named
  superseded := fun t member => held.superseded t ((same t).mp member)
  handles := held.handles
  contents := fun t content live => held.contents t content fun member => live ((same t).mpr member)
  apart := fun t t' live live' => held.apart t t' (fun member => live ((same t).mpr member))
    fun member => live' ((same t').mpr member)
  traced := held.traced

section
variable {program : SsaFunction} {tree : Construction.Tree program.function} {f : Value → Value}
  {object : Nat → Nat} {dead : List Nat} {b k : Nat} {n : Name} {inst new : Inst}
  {values after : Pure.Store} {state after' : InPlace.Store}

def Follows (program : SsaFunction) (tree : Construction.Tree program.function) (f : Value → Value)
    (dead : List Nat) (b k : Nat) (after : Pure.Store) (after' : InPlace.Store) : Prop :=
  ∃ object, Held object dead after after' ∧
    Named program tree f object b (k + 1) after.env after'.env

theorem superseded_one {x : Value} {t : Nat} (isSsa : inst.isSsa = true) (mutated : inst.mutated = [x])
    (found : reference values.env x = some t) : superseded values inst = [t] := by
  simp [superseded,isSsa,mutated,found]

variable (before : Before program tree f object dead b k n inst values state)
include before

/-- The new version of an object is the only one. -/
theorem Before.written {x : Value} {t : Nat} {old c : Content Nat} {m : Name} {s : Stamp} {o : Object}
    {c' : Content Stamp} (isSsa : inst.isSsa = true) (mutated : inst.mutated = [x])
    (found : reference values.env x = some t) (stored : values.memory t = some old)
    (becomes : f x = .name m) (is : state.env m = some (.reference s)) (handle : s.handle = object t)
    (made : ∀ r ∈ c.references, r < values.next) (shows : c'.map Stamp.handle = c.map object)
    (memory : after'.memory = (InPlace.mutate state s.handle (o.version + 1) c').memory)
    (next : after'.next = state.next) (trace : after'.trace = state.trace)
    (env : ∀ m', m' ≠ n → after'.env m' = (state.restamp m ⟨s.handle,o.version + 1⟩).env m')
    (result : coalescedOperand inst = some x ∨
      (coalescedOperand inst = none ∧ after'.env n = some (.reference s)))
    (same : after = (Pure.create values c).bind n (.reference values.next)) :
    Follows program tree f (superseded values inst ++ dead) b k after after' := by
  have used : x ∈ inst.operands := by simp [Inst.operands,mutated]
  have live : t ∉ dead := before.linear.live x (by simp [mutated]) t found
  refine ⟨Function.update object values.next (object t),?_,?_⟩
  · rw [superseded_one isSsa mutated found,same]
    have held := before.held.supersede live stored made shows (o.version + 1)
    rw [← handle] at held ⊢
    refine (held.bind n ?_).store memory next (congrArg calls trace)
    intro r member
    obtain rfl := List.mem_singleton.mp member
    exact Nat.lt_succ_self _
  · have atResult : after.env n = some (.reference values.next) := by rw [same,State.bind_env_self]
    have notMarker : inst ≠ .endInst := by
      rintro rfl
      exact absurd mutated (by simp [Inst.mutated])
    refine before.named.next before.resolves before.at_ before.reachable ?_ ?_ ?_ ?_ ?_ ?_ ?_ ?_
    · exact fun m value is t member => update_below (before.held.named m value is t member)
    · intro m' other
      rw [same,State.bind_env_ne _ _ other]
      rfl
    · intro m' other
      unfold SameHandles
      rw [env m' other]
      by_cases here : m' = m
      · rw [here,State.restamp_env_self,is]
        rfl
      · rw [State.restamp_env_ne _ _ here]
    · intro w isWord
      exact absurd (atResult.symm.trans isWord) (by simp)
    · intro r isReference
      rw [atResult,Option.some.injEq,RtValue.reference.injEq] at isReference
      subst isReference
      unfold Points
      rw [Function.update_self]
      rcases result with operand | ⟨plain,bound⟩
      · have other : m ≠ n := by
          rintro rfl
          obtain ⟨x',rfl⟩ := before.resolves.name becomes
          have above := operand_available before.at_ before.reachable used
          refine before.resolves.apart before.at_ before.reachable ?_ (.inr above) becomes
          rintro rfl
          exact before.at_.not_available above
        rw [before.resolves.becomes (.written before.at_ before.reachable operand),becomes]
        refine ⟨⟨s.handle,o.version + 1⟩,?_,handle⟩
        simp only [reference]
        rw [env m other,State.restamp_env_self]
      · have notPart : ∀ pair second, inst ≠ .extractValue pair second := by
          rintro pair second rfl
          exact absurd mutated (by simp [Inst.mutated])
        rw [before.resolves.other (not_becomes before.at_ plain notPart)]
        exact ⟨s,by simp [reference,bound],handle⟩
    · intro r r' isPair
      exact absurd (atResult.symm.trans isPair) (by simp)
    · exact fun isMarker => absurd isMarker notMarker
    · intro isMarker
      exact absurd (atResult.symm.trans isMarker) (by simp)

end

/-- The operations that make a version of one collection. -/
def isWrite : Inst → Bool
  | .indexWrite _ _ _ | .assocWrite _ _ _ | .seqInsert _ _ _ | .seqInsertSeq _ _ _ | .seqRemove _ _ _
  | .seqSwapWithin _ _ _ _ | .assocInsert _ _ | .assocRemove _ _ => true
  | _ => false

section
variable {program : SsaFunction} {tree : Construction.Tree program.function} {f : Value → Value}
  {object : Nat → Nat} {dead : List Nat} {b k : Nat} {n : Name} {inst new : Inst}
  {values after : Pure.Store} {state after' : InPlace.Store}

theorem isWrite_shape (write : isWrite inst = true) : inst.isSsa = true ∧ inst.isMut = false ∧
    inst.isBackend = false ∧ ∃ x, inst.mutated = [x] ∧
      (coalescedOperand inst = some x ∨ coalescedOperand inst = none) := by
  cases inst <;> simp only [isWrite,Bool.false_eq_true] at write
  case seqInsert | seqInsertSeq | seqRemove => exact ⟨rfl,rfl,rfl,_,rfl,.inr rfl⟩
  all_goals exact ⟨rfl,rfl,rfl,_,rfl,.inl rfl⟩

theorem isWrite_writes (write : isWrite inst = true) {ρ : Type} {env : Env ρ} {reply : Reply}
    {operation : Operation ρ} (found : inst.operation env reply = some operation) :
    operation.writes = true := by
  cases inst <;> simp only [isWrite,Bool.false_eq_true] at write
  all_goals
    simp only [Inst.operation,Option.pure_def,Option.bind_eq_bind,Option.bind_eq_some_iff,
      Option.some.injEq] at found
    obtain ⟨_,_,found⟩ := found
    first
      | (subst found; rfl)
      | obtain ⟨_,_,found⟩ := found
        first
          | (subst found; rfl)
          | obtain ⟨_,_,rfl⟩ := found
            rfl

/-- The calls that return the collection are those whose result is not coalesced, and those on maps. -/
theorem bindResult_write (write : isWrite inst = true) (lowering : lowerInst inst = some new)
    (notWithin : ∀ c first last toFirst, inst ≠ .seqSwapWithin c first last toFirst)
    (state : InPlace.Store) (s : Stamp) (c : Content Stamp) :
    InPlace.bindResult state n (new.mapCollections f) [s] (.write c) = state.bind n (.reference s) ∨
      (InPlace.bindResult state n (new.mapCollections f) [s] (.write c) = state ∧
        coalescedOperand inst ≠ none) := by
  cases inst <;> simp only [isWrite,Bool.false_eq_true] at write <;>
    simp only [lowerInst,Option.some.injEq] at lowering <;> subst lowering
  case seqSwapWithin c first last toFirst => exact absurd rfl (notWithin c first last toFirst)
  case indexWrite | assocWrite => exact .inr ⟨rfl,by simp [coalescedOperand]⟩
  all_goals exact .inl rfl

/-- A call on names and constants, of the shapes that lowering makes. -/
theorem lowerInst_shape (plain : inst.isMut = false ∧ inst.isBackend = false)
    (lowering : lowerInst inst = some new)
    (notWithin : ∀ c first last toFirst, inst ≠ .seqSwapWithin c first last toFirst)
    {env : Env Nat} {reply : Reply} {operation : Operation Nat}
    (found : inst.operation env reply = some operation) :
    (new.mapCollections f).mutated = inst.mutated.map f ∧
      (new.mapCollections f).read = inst.read.map f := by
  cases inst <;> simp only [Inst.isMut,Inst.isBackend,Bool.true_eq_false,false_and,and_false] at plain <;>
    simp only [lowerInst,Option.some.injEq,reduceCtorEq] at lowering <;> try subst lowering
  case seqSwapWithin c first last toFirst => exact absurd rfl (notWithin c first last toFirst)
  case deleteCollection => exact absurd found (by simp [Inst.operation])
  all_goals exact ⟨rfl,rfl⟩

theorem lowerInst_executed (plain : inst.isMut = false ∧ inst.isBackend = false)
    (lowering : lowerInst inst = some new) {env : Env Nat} {reply : Reply} {operation : Operation Nat}
    (found : inst.operation env reply = some operation) :
    (∀ function operands, new.mapCollections f ≠ .scalar function operands) ∧
      (∀ operand, new.mapCollections f ≠ .backend .free [operand] [] none) ∧
      (new.mapCollections f).isSsa = false ∧ (new.mapCollections f).isMut = false := by
  cases inst <;> simp only [Inst.isMut,Inst.isBackend,Bool.true_eq_false,false_and,and_false] at plain <;>
    simp only [lowerInst,Option.some.injEq,reduceCtorEq] at lowering <;> try subst lowering
  case scalar | deleteCollection => exact absurd found (by simp [Inst.operation])
  all_goals exact ⟨by simp [Inst.mapCollections],by simp [Inst.mapCollections],rfl,rfl⟩

theorem write_of_map {outcome : Outcome Stamp} {c : Content Nat}
    (same : outcome.map Stamp.handle = (Outcome.write c).map object) :
    ∃ c', outcome = .write c' ∧ c'.map Stamp.handle = c.map object := by
  obtain ⟨mutated,created,result,events⟩ := outcome
  simp only [Outcome.map,Outcome.write,Outcome.mk.injEq,List.map_cons,List.map_nil,Option.map_some,
    Option.map_none,Option.map_eq_none_iff] at same
  obtain ⟨isMutated,rfl,rfl,rfl⟩ := same
  obtain ⟨written,rest,rfl,isWritten,isRest⟩ := List.map_eq_cons_iff.mp isMutated
  obtain rfl := List.map_eq_nil_iff.mp isRest
  obtain ⟨c',rfl,shows⟩ := Option.map_eq_some_iff.mp isWritten
  exact ⟨c',rfl,shows⟩

variable (before : Before program tree f object dead b k n inst values state)
include before

/-- The call runs where the operation does. -/
theorem Before.executed (plain : inst.isMut = false ∧ inst.isBackend = false)
    (notWithin : ∀ c first last toFirst, inst ≠ .seqSwapWithin c first last toFirst)
    (sized : Sized inst values state.env) (oracle : Oracle) {operation : Operation Nat}
    (found : inst.operation values.env (environment oracle values.trace) = some operation)
    {mutated read : List Nat} {contents contents' : List (Content Nat)} {outcome : Outcome Nat}
    (isMutated : inst.mutated.mapM (reference values.env) = some mutated)
    (isRead : inst.read.mapM (reference values.env) = some read)
    (held : mutated.mapM values.memory = some contents)
    (held' : read.mapM values.memory = some contents')
    (run : operation.run contents contents' = some outcome) :
    ∃ new ss outcome', lowerInst inst = some new ∧
      (inst.mutated.map f).mapM (reference state.env) = some ss ∧
      ss.map Stamp.handle = mutated.map object ∧ outcome'.map Stamp.handle = outcome.map object ∧
      InPlace.exec (environment oracle) n (new.mapCollections f) state = some ((InPlace.bindResult
        (InPlace.writeBack state ((inst.mutated.map f).zip (ss.zip outcome'.mutated))) n
          (new.mapCollections f) ss outcome').emit outcome'.events) := by
  obtain ⟨new,lowering⟩ : ∃ new, lowerInst inst = some new := by
    cases inst
    case extractValue | collectionPhi | endInst => exact absurd found (by simp [Inst.operation])
    all_goals exact ⟨_,rfl⟩
  obtain ⟨operation',found',same⟩ :=
    before.operation sized lowering plain notWithin found isMutated isRead held held'
  obtain ⟨ss,rs,outcome',isMutated',isRead',sameMutated,ran,sameOutcome⟩ :=
    before.ran plain same isMutated isRead held held' run
  obtain ⟨shape,shape'⟩ := lowerInst_shape (f := f) plain lowering notWithin found
  obtain ⟨notScalar',notFree,isSsa,isMut⟩ := lowerInst_executed (f := f) plain lowering found
  have reply : environment oracle state.trace = environment oracle values.trace := by
    rw [environment,before.held.traced]
    rfl
  refine ⟨new,ss,outcome',lowering,isMutated',sameMutated,sameOutcome,?_⟩
  rw [← shape]
  refine InPlace.exec_lowered notScalar' notFree isSsa isMut ?_ ?_ ?_ ran
  · rw [reply]
    exact found'
  · rw [shape]
    exact isMutated'
  · rw [shape']
    exact isRead'

/-- The references of what an operation makes are those of its operands. -/
theorem Before.made (plain : inst.isMut = false ∧ inst.isBackend = false) {reply : Reply}
    {operation : Operation Nat} (found : inst.operation values.env reply = some operation)
    {mutated read : List Nat} {contents contents' : List (Content Nat)} {outcome : Outcome Nat}
    (held : mutated.mapM values.memory = some contents)
    (held' : read.mapM values.memory = some contents')
    (run : operation.run contents contents' = some outcome) :
    ∀ r ∈ outcome.references, r < values.next := by
  refine Operation.run_references run ?_ ?_ ?_
  · intro r member
    obtain ⟨m,is⟩ := Inst.operation_references plain.2 found member
    exact before.held.named m _ is r (List.mem_singleton.mpr rfl)
  · intro c member
    obtain ⟨t,_,is⟩ := mem_mapM held member
    exact (before.held.made t c is).2
  · intro c member
    obtain ⟨t,_,is⟩ := mem_mapM held' member
    exact (before.held.made t c is).2

/-- A write, and the call that it becomes. -/
theorem Before.write (write : isWrite inst = true) (sized : Sized inst values state.env) (oracle : Oracle)
    (notWithin : ∀ c first last toFirst, inst ≠ .seqSwapWithin c first last toFirst)
    {operation : Operation Nat}
    (found : inst.operation values.env (environment oracle values.trace) = some operation)
    {mutated read : List Nat} {contents contents' : List (Content Nat)} {outcome : Outcome Nat}
    (isMutated : inst.mutated.mapM (reference values.env) = some mutated)
    (isRead : inst.read.mapM (reference values.env) = some read)
    (held : mutated.mapM values.memory = some contents)
    (held' : read.mapM values.memory = some contents')
    (run : operation.run contents contents' = some outcome)
    (same : after = Pure.bindResult ((Pure.allocate values
        ((if inst.isSsa then outcome.mutated.reduceOption else []) ++ outcome.created.toList)).1.emit
          outcome.events) n (Pure.allocate values
        ((if inst.isSsa then outcome.mutated.reduceOption else []) ++ outcome.created.toList)).2
          outcome.result) :
    ∃ new state', lowerInst inst = some new ∧
      InPlace.exec (environment oracle) n (new.mapCollections f) state = some state' ∧
      Follows program tree f (superseded values inst ++ dead) b k after state' := by
  obtain ⟨isSsa,isMut,isBackend,x,isX,operand⟩ := isWrite_shape write
  obtain ⟨old,c,rfl,rfl⟩ := Operation.writes_outcome (isWrite_writes write found) run
  have made := before.made ⟨isMut,isBackend⟩ found held held' run
  obtain ⟨new,ss,outcome',lowering,isSs,sameSs,sameOutcome,executed⟩ := before.executed ⟨isMut,isBackend⟩
    notWithin sized oracle found isMutated isRead held held' run
  obtain ⟨c',rfl,shows⟩ := write_of_map sameOutcome
  rw [isX] at isMutated isSs
  obtain ⟨t,foundX,rfl⟩ := mapM_singleton isMutated
  obtain ⟨old',stored,sameOld⟩ := mapM_singleton held
  obtain ⟨s,isS,rfl⟩ := mapM_singleton isSs
  have handle : s.handle = object t := by simpa using sameSs
  obtain ⟨m,becomes,is⟩ := reference_env isS
  have live : t ∉ dead := before.linear.live x (by simp [isX]) t foundX
  obtain ⟨o,at_,_⟩ := before.held.contents t old' live stored
  rw [← handle] at at_
  have back : InPlace.writeBack state ((inst.mutated.map f).zip ([s].zip (Outcome.write c').mutated)) =
      (InPlace.mutate state s.handle (o.version + 1) c').restamp m ⟨s.handle,o.version + 1⟩ := by
    rw [isX,← InPlace.writeBack_one at_ c',← becomes]
    rfl
  have refs : ∀ r ∈ c.references, r < values.next := by
    intro r member
    exact made r (by simpa [Outcome.references,Outcome.write,List.reduceOption] using member)
  rw [back] at executed
  refine ⟨new,_,lowering,executed,?_⟩
  rcases bindResult_write (n := n) (f := f) write lowering notWithin
    ((InPlace.mutate state s.handle (o.version + 1) c').restamp m ⟨s.handle,o.version + 1⟩) s c' with
    bound | ⟨bound,coalesced⟩
  · rw [bound]
    refine before.written isSsa isX foundX stored becomes is handle refs shows rfl rfl rfl ?_ ?_ ?_
    · exact fun m' other => State.bind_env_ne _ _ other
    · exact operand.imp_right fun none => ⟨none,State.bind_env_self _ _ _⟩
    · rw [same,isSsa]
      rfl
  · rw [bound]
    refine before.written isSsa isX foundX stored becomes is handle refs shows rfl rfl rfl ?_ ?_ ?_
    · exact fun m' _ => rfl
    · exact .inl (operand.resolve_right coalesced)
    · rw [same,isSsa]
      rfl

/-- A swap within a sequence becomes a swap of the sequence with itself. -/
theorem Before.within {x : Value} {first last toFirst : Scalar}
    (isWithin : inst = .seqSwapWithin x first last toFirst) (sized : Sized inst values state.env)
    (oracle : Oracle) {operation : Operation Nat}
    (found : inst.operation values.env (environment oracle values.trace) = some operation)
    {mutated read : List Nat} {contents contents' : List (Content Nat)} {outcome : Outcome Nat}
    (isMutated : inst.mutated.mapM (reference values.env) = some mutated)
    (isRead : inst.read.mapM (reference values.env) = some read)
    (held : mutated.mapM values.memory = some contents)
    (held' : read.mapM values.memory = some contents')
    (run : operation.run contents contents' = some outcome)
    (same : after = Pure.bindResult ((Pure.allocate values
        ((if inst.isSsa then outcome.mutated.reduceOption else []) ++ outcome.created.toList)).1.emit
          outcome.events) n (Pure.allocate values
        ((if inst.isSsa then outcome.mutated.reduceOption else []) ++ outcome.created.toList)).2
          outcome.result) :
    ∃ new state', lowerInst inst = some new ∧
      InPlace.exec (environment oracle) n (new.mapCollections f) state = some state' ∧
      Follows program tree f (superseded values inst ++ dead) b k after state' := by
  subst isWithin
  have made := before.made ⟨rfl,rfl⟩ found held held' run
  obtain ⟨old,c,rfl,rfl⟩ := Operation.writes_outcome (isWrite_writes rfl found) run
  obtain ⟨t,foundX,rfl⟩ := mapM_singleton isMutated
  obtain ⟨old',stored,sameOld⟩ := mapM_singleton held
  obtain rfl := List.cons.inj sameOld |>.1
  obtain rfl : read = [] := by simpa [Inst.read] using isRead.symm
  obtain rfl : contents' = [] := by simpa using held'.symm
  have used : x ∈ Inst.operands (.seqSwapWithin x first last toFirst) := by
    simp [Inst.operands,Inst.mutated]
  obtain ⟨s,isS,handle⟩ := before.points used foundX
  obtain ⟨m,becomes,is⟩ := reference_env isS
  have live : t ∉ dead := before.linear.live x (by simp [Inst.mutated]) t foundX
  obtain ⟨o,at_,shown⟩ := before.held.contents t old live stored
  rw [← handle] at at_
  simp only [Inst.operation,Option.pure_def,Option.bind_eq_bind,Option.bind_eq_some_iff,
    Option.some.injEq] at found
  obtain ⟨i,isI,j,isJ,i',isI',rfl⟩ := found
  have index := sized 1 first x t old i (by simp [operandNumbers]) rfl foundX stored isI
  have index' := sized 2 last x t old j (by simp [operandNumbers]) rfl foundX stored isJ
  have index'' := sized 3 toFirst x t old i' (by simp [operandNumbers]) rfl foundX stored isI'
  have renamed : ((Operation.seqSwapWithin (some (i.getD old.length)) (some (j.getD old.length))
      (some (i'.getD old.length))).run [o.content] []).map (Outcome.map Stamp.handle) =
        some ((Outcome.write c).map object) := by
    rw [← Operation.run_map,List.map_cons,List.map_nil,shown]
    have atEnds := Operation.run_atEnds (Operation.seqSwapWithin i j i') [old] []
    rw [run] at atEnds
    have mapped := Operation.run_map object
      ((Operation.seqSwapWithin i j i').atEnds [old.length] []) [old] []
    rw [List.map_cons,List.map_nil] at atEnds
    rw [atEnds] at mapped
    exact mapped
  obtain ⟨outcome',ran,sameOutcome⟩ := Option.map_eq_some_iff.mp renamed
  obtain ⟨c',rfl,shows⟩ := write_of_map sameOutcome
  have content : InPlace.content state s = some o.content := by simp [InPlace.content,at_]
  rw [← InPlace.runOn_within content] at ran
  have executed : InPlace.exec (environment oracle) n
      (.backend .vectorSwap [f x,f x] [first,last,toFirst] none) state =
        some ((InPlace.mutate state s.handle (o.version + 1) c').restamp m ⟨s.handle,o.version + 1⟩) := by
    rw [InPlace.exec_lowered (by simp) (by simp) rfl rfl
      (by simp [Inst.operation,index,index',index'']) (by simp [Inst.mutated,isS]) rfl ran,
      ← InPlace.writeBack_one at_ c',← becomes]
    rfl
  refine ⟨_,_,rfl,executed,?_⟩
  refine before.written rfl rfl foundX stored becomes is handle ?_ shows rfl rfl rfl (fun _ _ => rfl)
    (.inl rfl) same
  intro r member
  exact made r (by simpa [Outcome.references,Outcome.write,List.reduceOption] using member)

end
end Memoir.Destruction
