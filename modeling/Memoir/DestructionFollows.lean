import Memoir.DestructionSteps

/-! Swaps, reads, allocations and deletions, and the instructions that destruction erases; together with the
writes, every instruction. -/
namespace Memoir.Destruction
open Dominance

theorem swap_of_map {object : Nat → Nat} {outcome : Outcome Stamp} {c d : Content Nat}
    (same : outcome.map Stamp.handle = (Outcome.mk [some c,some d] none none []).map object) :
    ∃ c' d', outcome = ⟨[some c',some d'],none,none,[]⟩ ∧ c'.map Stamp.handle = c.map object ∧
      d'.map Stamp.handle = d.map object := by
  obtain ⟨mutated,created,result,events⟩ := outcome
  simp only [Outcome.map,Outcome.mk.injEq,List.map_cons,List.map_nil,Option.map_some,
    Option.map_none,Option.map_eq_none_iff] at same
  obtain ⟨isMutated,rfl,rfl,rfl⟩ := same
  obtain ⟨first,rest,rfl,isFirst,isRest⟩ := List.map_eq_cons_iff.mp isMutated
  obtain ⟨second,rest,rfl,isSecond,isNil⟩ := List.map_eq_cons_iff.mp isRest
  obtain rfl := List.map_eq_nil_iff.mp isNil
  obtain ⟨c',rfl,shows⟩ := Option.map_eq_some_iff.mp isFirst
  obtain ⟨d',rfl,shows'⟩ := Option.map_eq_some_iff.mp isSecond
  exact ⟨c',d',rfl,shows,shows'⟩

section
variable {program : SsaFunction} {tree : Construction.Tree program.function} {f : Value → Value}
  {object : Nat → Nat} {dead : List Nat} {b k : Nat} {n : Name} {inst new : Inst}
  {values after : Pure.Store} {state : InPlace.Store}
  (before : Before program tree f object dead b k n inst values state)
include before

/-- Two versions at once, which only the parts of the result name. -/
theorem Before.swapped {x y : Value} {first last toFirst : Scalar}
    (isSwap : inst = .seqSwap x first last y toFirst) {t t' : Nat} {old old' c d : Content Nat} {m m' : Name}
    {s s' : Stamp} {c' d' : Content Stamp} (foundX : reference values.env x = some t)
    (foundY : reference values.env y = some t') (stored : values.memory t = some old)
    (stored' : values.memory t' = some old') (different : t' ≠ t) (becomes : f x = .name m)
    (becomes' : f y = .name m') (is : state.env m = some (.reference s))
    (is' : state.env m' = some (.reference s')) (handle : s.handle = object t)
    (handle' : s'.handle = object t') (made : ∀ r ∈ c.references, r < values.next)
    (made' : ∀ r ∈ d.references, r < values.next) (shows : c'.map Stamp.handle = c.map object)
    (shows' : d'.map Stamp.handle = d.map object) (version version' : Nat) :
    Follows program tree f (superseded values inst ++ dead) b k
      ((Pure.create (Pure.create values c) d).bind n (.pair values.next (values.next + 1)))
      ((InPlace.mutate ((InPlace.mutate state s.handle version c').restamp m ⟨s.handle,version⟩)
        s'.handle version' d').restamp m' ⟨s'.handle,version'⟩) := by
  subst isSwap
  have live : t ∉ dead := before.linear.live x (by simp [Inst.mutated]) t foundX
  have live' : t' ∉ dead := before.linear.live y (by simp [Inst.mutated]) t' foundY
  have bound : t < values.next := (before.held.made t old stored).1
  have bound' : t' < values.next := (before.held.made t' old' stored').1
  have other : m' ≠ m := by
    rintro rfl
    have equal := RtValue.reference.inj (Option.some.inj (is.symm.trans is'))
    have objects : object t = object t' := by rw [← handle,← handle',equal]
    exact different (before.held.apart t t' live live' (by simp [stored]) (by simp [stored']) objects).symm
  have held₁ := before.held.supersede live stored made shows version
  have live₁ : t' ∉ t :: dead := fun member => (List.mem_cons.mp member).elim different live'
  have stored₁ : (Pure.create values c).memory t' = some old' := by
    rw [← stored']
    exact Function.update_of_ne (Nat.ne_of_lt bound') _ _
  have shows₁ : d'.map Stamp.handle = d.map (Function.update object values.next (object t)) := by
    rw [shows',map_below made']
  have held₂ := held₁.supersede live₁ stored₁ (fun r member => Nat.lt_succ_of_lt (made' r member)) shows₁
    version'
  rw [update_below bound',← handle,← handle'] at held₂
  have pair : ∀ r ∈ (RtValue.pair values.next (values.next + 1)).references, r < values.next + 1 + 1 := by
    intro r member
    simp only [RtValue.references,List.mem_cons,List.not_mem_nil,or_false] at member
    omega
  have tokens : ∀ r, r ∈ superseded values (.seqSwap x first last y toFirst) ++ dead ↔
      r ∈ t' :: t :: dead := by
    intro r
    simp only [superseded,Inst.isSsa,Inst.mutated,if_true,List.filterMap_cons,List.filterMap_nil,foundX,
      foundY,List.cons_append,List.nil_append,List.mem_cons]
    tauto
  have below : ∀ r, r < values.next → Function.update (Function.update object values.next s.handle)
      (values.next + 1) s'.handle r = object r := by
    intro r less
    rw [Function.update_of_ne (by omega),Function.update_of_ne (by omega)]
  have atResult : ((Pure.create (Pure.create values c) d).bind n
      (.pair values.next (values.next + 1))).env n = some (.pair values.next (values.next + 1)) :=
    State.bind_env_self _ _ _
  have env : ((InPlace.mutate ((InPlace.mutate state s.handle version c').restamp m ⟨s.handle,version⟩)
      s'.handle version' d').restamp m' ⟨s'.handle,version'⟩).env = Function.update (Function.update state.env
        m (some (.reference ⟨s.handle,version⟩))) m' (some (.reference ⟨s'.handle,version'⟩)) := rfl
  refine ⟨_,((held₂.bind n pair).same_dead tokens).store rfl rfl rfl,?_⟩
  refine before.named.next before.resolves before.at_ before.reachable ?_ ?_ ?_ ?_ ?_ ?_ ?_ ?_
  · exact fun m value is r member => below r (before.held.named m value is r member)
  · exact fun m₁ apart => State.bind_env_ne _ _ apart
  · intro m₁ _
    unfold SameHandles
    rw [env]
    by_cases second : m₁ = m'
    · rw [second,Function.update_self,is']
      rfl
    · rw [Function.update_of_ne second]
      by_cases here : m₁ = m
      · rw [here,Function.update_self,is]
        rfl
      · rw [Function.update_of_ne here]
  · intro w isWord
    exact absurd (atResult.symm.trans isWord) (by simp)
  · intro r isReference
    exact absurd (atResult.symm.trans isReference) (by simp)
  · intro r r' isPair
    rw [atResult,Option.some.injEq,RtValue.pair.injEq] at isPair
    obtain ⟨rfl,rfl⟩ := isPair
    refine ⟨x,first,last,y,toFirst,rfl,?_,?_⟩
    · rw [becomes]
      refine ⟨⟨s.handle,version⟩,?_,?_⟩
      · simp only [reference,env]
        rw [Function.update_of_ne (Ne.symm other),Function.update_self]
      · change s.handle = Function.update (Function.update object values.next s.handle) (values.next + 1)
          s'.handle values.next
        rw [Function.update_of_ne (by omega),Function.update_self]
    · rw [becomes']
      refine ⟨⟨s'.handle,version'⟩,?_,?_⟩
      · simp only [reference,env,Function.update_self]
      · change s'.handle = Function.update (Function.update object values.next s.handle) (values.next + 1)
          s'.handle (values.next + 1)
        rw [Function.update_self]
  · exact fun isMarker => absurd isMarker (by simp)
  · intro isMarker
    exact absurd (atResult.symm.trans isMarker) (by simp)

theorem Before.swap {x y : Value} {first last toFirst : Scalar}
    (isSwap : inst = .seqSwap x first last y toFirst) (sized : Sized inst values state.env)
    (oracle : Oracle) {operation : Operation Nat}
    (found : inst.operation values.env (environment oracle values.trace) = some operation)
    {mutated read : List Nat} {contents contents' : List (Content Nat)} {outcome : Outcome Nat}
    (isMutated : inst.mutated.mapM (reference values.env) = some mutated)
    (isRead : inst.read.mapM (reference values.env) = some read)
    (held : mutated.mapM values.memory = some contents)
    (held' : read.mapM values.memory = some contents')
    (run : operation.run contents contents' = some outcome)
    (same : after = Pure.bindResult ((Pure.allocate values
        ((if inst.isSsa then outcome.mutated.reduceOption else []) ++ outcome.created.toList)).1.emit
          outcome.events) n (Pure.allocate values
        ((if inst.isSsa then outcome.mutated.reduceOption else []) ++ outcome.created.toList)).2
          outcome.result) :
    ∃ new state', lowerInst inst = some new ∧
      InPlace.exec (environment oracle) n (new.mapCollections f) state = some state' ∧
      Follows program tree f (superseded values inst ++ dead) b k after state' := by
  have plain : inst.isMut = false ∧ inst.isBackend = false := isSwap ▸ ⟨rfl,rfl⟩
  have isX : inst.mutated = [x,y] := isSwap ▸ rfl
  have made := before.made plain found held held' run
  obtain ⟨new,ss,outcome',lowering,isSs,sameSs,sameOutcome,executed⟩ := before.executed plain
    (by simp [isSwap]) sized oracle found isMutated isRead held held' run
  obtain ⟨i,j,i',rfl⟩ : ∃ i j i', operation = .seqSwap i j i' := by
    rw [isSwap] at found
    simp only [Inst.operation,Option.pure_def,Option.bind_eq_bind,Option.bind_eq_some_iff,
      Option.some.injEq] at found
    obtain ⟨i,_,j,_,i',_,rfl⟩ := found
    exact ⟨i,j,i',rfl⟩
  obtain ⟨old,old',c,d,rfl,rfl⟩ := Operation.swap_outcome run
  obtain ⟨c',d',rfl,shows,shows'⟩ := swap_of_map sameOutcome
  have distinct := before.tokens_nodup plain isMutated isRead (by
    rintro rfl
    exact absurd held (by simp))
  rw [isX] at isMutated isSs
  obtain ⟨t,t',foundX,foundY,rfl⟩ := mapM_pair isMutated
  obtain ⟨_,_,stored,stored',sameOld⟩ := mapM_pair held
  obtain ⟨rfl,rest⟩ := List.cons.inj sameOld
  obtain rfl := (List.cons.inj rest).1
  obtain ⟨s,s',isS,isS',rfl⟩ := mapM_pair isSs
  have different : t' ≠ t := by
    rintro rfl
    simp at distinct
  obtain ⟨handle,handle'⟩ : s.handle = object t ∧ s'.handle = object t' := by simpa using sameSs
  obtain ⟨m,becomes,is⟩ := reference_env isS
  obtain ⟨m',becomes',is'⟩ := reference_env isS'
  have live : t ∉ dead := before.linear.live x (by simp [isX]) t foundX
  have live' : t' ∉ dead := before.linear.live y (by simp [isX]) t' foundY
  have apart : s.handle ≠ s'.handle := by
    rw [handle,handle']
    exact fun equal => different
      (before.held.apart t t' live live' (by simp [stored]) (by simp [stored']) equal).symm
  obtain ⟨o,at_,_⟩ := before.held.contents t old live stored
  obtain ⟨o',at',_⟩ := before.held.contents t' old' live' stored'
  rw [← handle] at at_
  rw [← handle'] at at'
  have back : InPlace.writeBack state ((inst.mutated.map f).zip ([s,s'].zip [some c',some d'])) =
      (InPlace.mutate ((InPlace.mutate state s.handle (o.version + 1) c').restamp m
          ⟨s.handle,o.version + 1⟩) s'.handle (o'.version + 1) d').restamp m'
        ⟨s'.handle,o'.version + 1⟩ := by
    rw [isX,← InPlace.writeBack_two at_ at' apart,← becomes,← becomes']
    rfl
  dsimp only at executed
  rw [back] at executed
  have isSsa : inst.isSsa = true := isSwap ▸ rfl
  have isAfter : after = (Pure.create (Pure.create values c) d).bind n
      (.pair values.next (values.next + 1)) := by
    rw [same,isSsa]
    rfl
  have result : new.mapCollections f = .backend .vectorSwap [f x,f y] [first,last,toFirst] none := by
    rw [isSwap] at lowering
    obtain rfl := Option.some.inj lowering
    rfl
  refine ⟨new,_,lowering,executed,?_⟩
  rw [result,isAfter]
  refine before.swapped isSwap foundX foundY stored stored' different becomes becomes' is is' handle handle'
    ?_ ?_ shows shows' (o.version + 1) (o'.version + 1)
  · intro r member
    exact made r (by simp [Outcome.references,List.reduceOption,member])
  · intro r member
    exact made r (by simp [Outcome.references,List.reduceOption,member])

omit before in
theorem coalescedOperand_other (other : isWrite inst = false) {env : Env Nat} {reply : Reply}
    {operation : Operation Nat} (found : inst.operation env reply = some operation) :
    coalescedOperand inst = none := by
  cases inst
  case collectionPhi => exact absurd found (by simp [Inst.operation])
  all_goals first
    | rfl
    | exact absurd other (by simp [isWrite])

/-- A new collection has a name of its own. -/
theorem Before.created (plain : coalescedOperand inst = none)
    (notPart : ∀ pair second, inst ≠ .extractValue pair second) (notMarker : inst ≠ .endInst)
    {c : Content Nat} {c' : Content Stamp} (made : ∀ r ∈ c.references, r < values.next)
    (shows : c'.map Stamp.handle = c.map object) (events : List Event) :
    Follows program tree f dead b k
      (((Pure.create values c).emit events).bind n (.reference values.next))
      (((InPlace.create state c').bind n (.reference ⟨state.next,0⟩)).emit events) := by
  have fresh : ∀ r ∈ (RtValue.reference values.next).references, r < values.next + 1 := by
    intro r member
    obtain rfl := List.mem_singleton.mp member
    exact Nat.lt_succ_self _
  have held := ((before.held.create made shows).emit events).bind n fresh
  have atResult : (((Pure.create values c).emit events).bind n (.reference values.next)).env n =
      some (.reference values.next) := State.bind_env_self _ _ _
  refine ⟨_,held.store rfl rfl rfl,?_⟩
  refine before.named.next before.resolves before.at_ before.reachable ?_ ?_ ?_ ?_ ?_ ?_ ?_ ?_
  · exact fun m value is r member => update_below (before.held.named m value is r member)
  · exact fun m other => State.bind_env_ne _ _ other
  · intro m other
    exact congrArg _ (State.bind_env_ne (InPlace.create state c') _ other)
  · intro w isWord
    exact absurd (atResult.symm.trans isWord) (by simp)
  · intro r isReference
    rw [atResult,Option.some.injEq,RtValue.reference.injEq] at isReference
    subst isReference
    rw [before.resolves.other (not_becomes before.at_ plain notPart)]
    have bound : (((InPlace.create state c').bind n (.reference ⟨state.next,0⟩)).emit events).env n =
        some (.reference ⟨state.next,0⟩) := State.bind_env_self _ _ _
    refine ⟨⟨state.next,0⟩,by simp only [reference,bound],?_⟩
    rw [Function.update_self]
  · intro r r' isPair
    exact absurd (atResult.symm.trans isPair) (by simp)
  · exact fun isMarker => absurd isMarker notMarker
  · intro isMarker
    exact absurd (atResult.symm.trans isMarker) (by simp)

/-- A scalar that is read or computed, or a collection that is read from another. -/
theorem Before.resulted (plain : coalescedOperand inst = none)
    (notPart : ∀ pair second, inst ≠ .extractValue pair second) (notMarker : inst ≠ .endInst)
    {d : Datum Nat} {d' : Datum Stamp} (made : ∀ r ∈ d.references, r < values.next)
    (shows : d'.map Stamp.handle = d.map object) (events : List Event) :
    Follows program tree f dead b k ((values.emit events).bind n (rtValue d))
      ((state.bind n (rtValue d')).emit events) := by
  have named : ∀ r ∈ (rtValue d).references, r < values.next := by rwa [rtValue_references]
  have held := (before.held.emit events).bind n named
  have atResult : ((values.emit events).bind n (rtValue d)).env n = some (rtValue d) :=
    State.bind_env_self _ _ _
  have bound : ((state.bind n (rtValue d')).emit events).env n = some (rtValue d') :=
    State.bind_env_self _ _ _
  refine ⟨object,held.store rfl rfl rfl,?_⟩
  refine before.named.next before.resolves before.at_ before.reachable (fun _ _ _ _ _ => rfl) ?_ ?_ ?_ ?_ ?_
    ?_ ?_
  · exact fun m other => State.bind_env_ne _ _ other
  · intro m other
    exact congrArg _ (State.bind_env_ne state _ other)
  · intro w isWord
    rw [bound]
    rw [atResult] at isWord
    cases d <;> cases d' <;> simp_all [rtValue,Datum.map]
  · intro r isReference
    rw [before.resolves.other (not_becomes before.at_ plain notPart)]
    rw [atResult] at isReference
    cases d with
    | scalar w => exact absurd isReference (by simp [rtValue])
    | collection t =>
      cases d' with
      | scalar w => exact absurd shows (by simp [Datum.map])
      | collection s =>
        obtain rfl := RtValue.reference.inj (Option.some.inj isReference)
        have isResult : ((state.bind n (rtValue (.collection s))).emit events).env n =
            some (.reference s) := bound
        exact ⟨s,by simp only [reference,isResult],Datum.collection.inj shows⟩
  · intro r r' isPair
    rw [atResult] at isPair
    cases d <;> exact absurd isPair (by simp [rtValue])
  · exact fun isMarker => absurd isMarker notMarker
  · intro isMarker
    rw [atResult] at isMarker
    cases d <;> exact absurd isMarker (by simp [rtValue])

/-- A call without a result. -/
theorem Before.silent (plain : coalescedOperand inst = none)
    (notPart : ∀ pair second, inst ≠ .extractValue pair second) (notMarker : inst ≠ .endInst)
    (notSwap : ∀ x first last y toFirst, inst ≠ .seqSwap x first last y toFirst) :
    Named program tree f object b (k + 1) values.env state.env := by
  refine before.named.next before.resolves before.at_ before.reachable (fun _ _ _ _ _ => rfl)
    (fun _ _ => rfl) (fun _ _ => rfl) ?_ ?_ ?_ ?_ ?_
  · exact fun w isWord => before.named.words n w isWord
  · intro r isReference
    exact before.named.references n r (.inl (not_becomes before.at_ plain notPart)) isReference
  · intro r r' isPair
    obtain ⟨_,_,x,first,last,y,toFirst,_,at',_⟩ := before.named.pairs n r r' isPair
    exact absurd (before.at_.unique at').2.2 (notSwap x first last y toFirst)
  · exact fun isMarker => absurd isMarker notMarker
  · intro isMarker
    obtain ⟨_,_,_,at'⟩ := mem_endMarkers.mp (before.named.marked n isMarker)
    exact absurd (before.at_.unique at').2.2 notMarker

/-- The keys that are read are present. -/
theorem Before.present (plain : inst.isMut = false ∧ inst.isBackend = false) {operation : Operation Nat}
    {reply : Reply} (found : inst.operation values.env reply = some operation) {mutated : List Nat}
    {contents : List (Content Nat)}
    (isMutated : inst.mutated.mapM (reference values.env) = some mutated)
    (held : mutated.mapM values.memory = some contents) (key : Word) (entries : List (Word × Datum Nat))
    (reads : operation = .assocRead key) (isAssoc : contents = [.assoc entries]) :
    (entries.lookup key).isSome = true := by
  obtain ⟨x,k',is⟩ : ∃ x k', inst = .assocRead x k' ∨ inst = .assocGet x k' := by
    subst reads
    cases inst
    case assocRead x k' => exact ⟨x,k',.inl rfl⟩
    case assocGet x k' => exact ⟨x,k',.inr rfl⟩
    case backend => exact absurd plain.2 (by simp [Inst.isBackend])
    all_goals simp [Inst.operation,Option.bind_eq_some_iff] at found
  have word : word values.env k' = some key := by
    rcases is with rfl | rfl <;>
      simpa [Inst.operation,Option.bind_eq_some_iff,reads] using found
  obtain ⟨t,isReference,rfl⟩ : ∃ t, reference values.env x = some t ∧ mutated = [t] := by
    rcases is with rfl | rfl <;> exact mapM_singleton isMutated
  refine before.linear.present x k' is t entries key isReference ?_ word
  simpa [isAssoc,Option.bind_eq_some_iff] using held

/-- What writes nothing allocates, has a result or calls. -/
theorem Before.unchanged (plain : inst.isMut = false ∧ inst.isBackend = false)
    (notWrite : isWrite inst = false)
    (notSwap : ∀ x first last y toFirst, inst ≠ .seqSwap x first last y toFirst)
    {operation : Operation Nat} {reply : Reply} (found : inst.operation values.env reply = some operation)
    {mutated : List Nat} {contents contents' : List (Content Nat)} {outcome : Outcome Nat}
    (isMutated : inst.mutated.mapM (reference values.env) = some mutated)
    (held : mutated.mapM values.memory = some contents)
    (run : operation.run contents contents' = some outcome) :
    (outcome.mutated = [] ∨ outcome.mutated = [none]) ∧ superseded values inst = [] ∧
      (outcome.created = none → outcome.result = none →
        ∃ callee collections scalars, inst = .call callee collections scalars) := by
  cases isSsa : inst.isSsa with
  | false =>
    obtain ⟨unchanged,result⟩ := Operation.reads_outcome (Inst.plain_reads plain.1 ⟨isSsa,plain.2⟩ found)
      (before.present plain found isMutated held) run
    refine ⟨unchanged,by simp [superseded,isSsa],fun created none => ?_⟩
    obtain ⟨callee,scalars,rfl⟩ := result created none
    cases inst
    case call callee' collections scalars' => exact ⟨callee',collections,scalars',rfl⟩
    case backend => exact absurd plain.2 (by simp [Inst.isBackend])
    all_goals simp [Inst.operation,Option.bind_eq_some_iff] at found
  | true =>
    cases inst <;> simp only [Inst.isSsa,isWrite,Bool.false_eq_true,Bool.true_eq_false] at isSsa notWrite
    case seqSwap x first last y toFirst => exact absurd rfl (notSwap x first last y toFirst)
    case seqCopy copied first last =>
      simp only [Inst.operation,Option.pure_def,Option.bind_eq_bind,Option.bind_eq_some_iff,
        Option.some.injEq] at found
      obtain ⟨i,_,j,_,rfl⟩ := found
      obtain ⟨c,rfl⟩ := Operation.copy_outcome run
      exact ⟨.inl rfl,rfl,fun created => absurd created (by simp [Outcome.create])⟩
    all_goals simp [Inst.operation] at found

/-- An instruction that writes nothing, and the call that it becomes. -/
theorem Before.unwritten (plain : inst.isMut = false ∧ inst.isBackend = false)
    (notWrite : isWrite inst = false)
    (notSwap : ∀ x first last y toFirst, inst ≠ .seqSwap x first last y toFirst)
    (sized : Sized inst values state.env) (oracle : Oracle) {operation : Operation Nat}
    (found : inst.operation values.env (environment oracle values.trace) = some operation)
    {mutated read : List Nat} {contents contents' : List (Content Nat)} {outcome : Outcome Nat}
    (isMutated : inst.mutated.mapM (reference values.env) = some mutated)
    (isRead : inst.read.mapM (reference values.env) = some read)
    (held : mutated.mapM values.memory = some contents)
    (held' : read.mapM values.memory = some contents')
    (run : operation.run contents contents' = some outcome)
    (same : after = Pure.bindResult ((Pure.allocate values
        ((if inst.isSsa then outcome.mutated.reduceOption else []) ++ outcome.created.toList)).1.emit
          outcome.events) n (Pure.allocate values
        ((if inst.isSsa then outcome.mutated.reduceOption else []) ++ outcome.created.toList)).2
          outcome.result) :
    ∃ new state', lowerInst inst = some new ∧
      InPlace.exec (environment oracle) n (new.mapCollections f) state = some state' ∧
      Follows program tree f (superseded values inst ++ dead) b k after state' := by
  obtain ⟨unchanged,none,silent⟩ := before.unchanged plain notWrite notSwap found isMutated held run
  have made := before.made plain found held held' run
  obtain ⟨new,ss,outcome',lowering,isSs,sameSs,sameOutcome,executed⟩ := before.executed plain
    (by rintro c first last toFirst rfl; exact absurd notWrite (by simp [isWrite])) sized oracle found
    isMutated isRead held held' run
  have noPart : coalescedOperand inst = .none ∧ (∀ pair second, inst ≠ .extractValue pair second) ∧
      inst ≠ .endInst := by
    refine ⟨coalescedOperand_other notWrite found,?_,?_⟩
    · rintro pair second rfl
      exact absurd found (by simp [Inst.operation])
    · rintro rfl
      exact absurd found (by simp [Inst.operation])
  obtain ⟨mutated₁,created,result,events⟩ := outcome
  obtain ⟨mutated₂,created',result',events'⟩ := outcome'
  simp only [Outcome.map,Outcome.mk.injEq] at sameOutcome
  obtain ⟨sameMutated,sameCreated,sameResult,rfl⟩ := sameOutcome
  have unchanged' : mutated₂ = [] ∨ mutated₂ = [.none] := by
    rcases unchanged with rfl | rfl
    · exact .inl (List.map_eq_nil_iff.mp sameMutated)
    · right
      obtain ⟨content,rest,rfl,isNone,isNil⟩ := List.map_eq_cons_iff.mp sameMutated
      rw [List.map_eq_nil_iff.mp isNil,Option.map_eq_none_iff.mp isNone]
  have nothing : (if inst.isSsa then mutated₁.reduceOption else []) = [] := by
    rcases unchanged with rfl | rfl <;> simp [List.reduceOption]
  rw [nothing,List.nil_append] at same
  rw [InPlace.writeBack_unchanged _ _ unchanged'] at executed
  refine ⟨new,_,lowering,executed,?_⟩
  rw [none,List.nil_append,same]
  cases created with
  | some c =>
    obtain ⟨c',rfl,shows⟩ := Option.map_eq_some_iff.mp sameCreated
    refine before.created noPart.1 noPart.2.1 noPart.2.2 (fun r member => made r ?_) shows events'
    simp [Outcome.references,member]
  | none =>
    obtain rfl := Option.map_eq_none_iff.mp sameCreated
    cases result with
    | some d =>
      obtain ⟨d',rfl,shows⟩ := Option.map_eq_some_iff.mp sameResult
      refine before.resulted noPart.1 noPart.2.1 noPart.2.2 (fun r member => made r ?_) shows events'
      simp [Outcome.references,member]
    | none =>
      obtain rfl := Option.map_eq_none_iff.mp sameResult
      obtain ⟨callee,collections,scalars,rfl⟩ := silent rfl rfl
      obtain rfl := Option.some.inj lowering
      exact ⟨object,before.held.emit events',before.silent noPart.1 noPart.2.1 noPart.2.2 notSwap⟩

theorem Before.scalar {function : List Word → Word} {operands : List Scalar} {words : List Word}
    (isScalar : inst = .scalar function operands)
    (evaluated : operands.mapM (word values.env) = some words) (oracle : Oracle) :
    InPlace.exec oracle n (inst.mapCollections f) state =
        some (state.bind n (.word (function words))) ∧
      Follows program tree f (superseded values inst ++ dead) b k
        (values.bind n (.word (function words))) (state.bind n (.word (function words))) := by
  subst isScalar
  constructor
  · simp [Inst.mapCollections,InPlace.exec,before.named.words_list evaluated]
  · have follows : Follows program tree f dead b k
        ((values.emit []).bind n (rtValue (.scalar (function words))))
        ((state.bind n (rtValue (.scalar (function words)))).emit []) :=
      before.resulted rfl (by simp) (by simp) (by simp [Datum.references]) rfl []
    exact follows

/-- An end marker has no call. -/
theorem Before.marker (isMarker : inst = .endInst) :
    Follows program tree f (superseded values inst ++ dead) b k (values.bind n .endOfSequence) state := by
  subst isMarker
  have atResult : (values.bind n .endOfSequence).env n = some .endOfSequence := State.bind_env_self _ _ _
  refine ⟨object,before.held.bind n (by simp [RtValue.references]),?_⟩
  refine before.named.next before.resolves before.at_ before.reachable (fun _ _ _ _ _ => rfl) ?_
    (fun _ _ => rfl) ?_ ?_ ?_ (fun _ => ⟨atResult,rfl⟩) (fun _ => rfl)
  · exact fun m other => State.bind_env_ne _ _ other
  · exact fun w is => absurd (atResult.symm.trans is) (by simp)
  · exact fun t is => absurd (atResult.symm.trans is) (by simp)
  · exact fun s t is => absurd (atResult.symm.trans is) (by simp)

/-- Nor has a part of the result of a swap, which is the operand itself. -/
theorem Before.part {pair : Name} {second : Bool} {s t : Nat} (isPart : inst = .extractValue pair second)
    (found : values.env pair = some (.pair s t)) :
    Follows program tree f (superseded values inst ++ dead) b k
      (values.bind n (.reference (if second then t else s))) state := by
  subst isPart
  have atResult : (values.bind n (.reference (if second then t else s))).env n =
      some (.reference (if second then t else s)) := State.bind_env_self _ _ _
  obtain ⟨b',k',x,first,last,y,toFirst,reachable,at',operands⟩ := before.named.pairs pair s t found
  have available : program.function.Available pair b k := by
    obtain ⟨block,isBlock,entry⟩ := before.at_
    exact (program.pairs b block isBlock k n pair second entry).1 before.reachable
  have becomes := Becomes.extracted before.at_ at' reachable
  have points : Points object state.env (f (.name n)) (if second then t else s) := by
    rw [before.resolves.becomes becomes]
    cases second
    · exact (operands available).1
    · exact (operands available).2
  have bound : (if second then t else s) < values.next := by
    refine before.held.named pair _ found _ ?_
    cases second <;> simp [RtValue.references]
  refine ⟨object,before.held.bind n (by simpa [RtValue.references] using bound),?_⟩
  refine before.named.next before.resolves before.at_ before.reachable (fun _ _ _ _ _ => rfl) ?_
    (fun _ _ => rfl) ?_ ?_ ?_ ?_ ?_
  · exact fun m other => State.bind_env_ne _ _ other
  · exact fun w is => absurd (atResult.symm.trans is) (by simp)
  · intro r is
    obtain rfl := RtValue.reference.inj (Option.some.inj (atResult.symm.trans is))
    exact points
  · exact fun r r' is => absurd (atResult.symm.trans is) (by simp)
  · exact fun isMarker => absurd isMarker (by simp)
  · exact fun is => absurd (atResult.symm.trans is) (by simp)

/-- Nor has another name of a version. -/
theorem Before.renamed {kind : CollectionPhi} {v : Value} {t : Nat} (isPhi : inst = .collectionPhi kind v)
    (found : reference values.env v = some t) :
    Follows program tree f (superseded values inst ++ dead) b k (values.bind n (.reference t)) state := by
  subst isPhi
  have atResult : (values.bind n (.reference t)).env n = some (.reference t) := State.bind_env_self _ _ _
  have points : Points object state.env (f (.name n)) t := by
    rw [before.resolves.becomes (.written before.at_ before.reachable rfl)]
    exact before.points (by simp [Inst.operands,Inst.read]) found
  obtain ⟨m,_,at_⟩ := reference_env found
  have bound : t < values.next := before.held.named m _ at_ t (List.mem_singleton.mpr rfl)
  refine ⟨object,before.held.bind n (by simpa [RtValue.references] using bound),?_⟩
  refine before.named.next before.resolves before.at_ before.reachable (fun _ _ _ _ _ => rfl) ?_
    (fun _ _ => rfl) ?_ ?_ ?_ ?_ ?_
  · exact fun m other => State.bind_env_ne _ _ other
  · exact fun w is => absurd (atResult.symm.trans is) (by simp)
  · intro r is
    obtain rfl := RtValue.reference.inj (Option.some.inj (atResult.symm.trans is))
    exact points
  · exact fun r r' is => absurd (atResult.symm.trans is) (by simp)
  · exact fun isMarker => absurd isMarker (by simp)
  · exact fun is => absurd (atResult.symm.trans is) (by simp)

/-- A deleted version supersedes itself: its object is gone. -/
theorem Before.deleted {v : Value} {t : Nat} {content : Content Nat} (isDelete : inst = .deleteCollection v)
    (found : reference values.env v = some t) (stored : values.memory t = some content) (oracle : Oracle) :
    ∃ state', InPlace.exec oracle n (.backend .free [f v] [] none) state = some state' ∧
      Follows program tree f (superseded values inst ++ dead) b k values state' := by
  subst isDelete
  have live : t ∉ dead := before.linear.live v (by simp [Inst.mutated]) t found
  obtain ⟨stamp,is,handle⟩ := before.points (by simp [Inst.operands,Inst.mutated]) found
  refine ⟨InPlace.free state [stamp],by simp [InPlace.exec,is],object,?_,
    before.silent rfl (by simp) (by simp) (by simp)⟩
  rw [superseded_one rfl rfl found]
  exact before.held.free live stored handle

/-- Any instruction, and what destruction puts in its place. -/
theorem Before.follow (isSupported : supported program.function tree = true) (oracle : Oracle)
    (plain : inst.isMut = false ∧ inst.isBackend = false)
    (ran : Pure.exec (environment oracle) n inst values = some after) :
    ∃ state', (∀ function rest, Run function (InPlace.exec (environment oracle)) (fun _ => True)
        ⟨b,(lowerEntry (endMarkers program.function tree) (n,inst)).map (fun entry =>
          (entry.1,entry.2.mapCollections f)) ++ rest,state⟩ ⟨b,rest,state'⟩) ∧
      Follows program tree f (superseded values inst ++ dead) b k after state' := by
  have erased : ∀ {inst : Inst}, lowerInst inst = none → operandNumbers inst = [] →
      (lowerEntry (endMarkers program.function tree) (n,inst)) = [] := by
    intro inst isNone noNumbers
    simp [lowerEntry,contextualized,isNone,noNumbers]
  rcases Pure.exec_some ran with ⟨function,operands,words,rfl,evaluated,rfl⟩ | ⟨rfl,rfl⟩ |
    ⟨pair,second,s,t,rfl,found,rfl⟩ | ⟨kind,v,t,rfl,found,rfl⟩ | ⟨v,t,content,rfl,found,stored,rfl⟩ |
    ⟨operation,mutated,read,contents,contents',outcome,found,isMutated,isRead,held,held',run,same⟩
  · obtain ⟨executed,follows⟩ := before.scalar rfl evaluated (environment oracle)
    exact ⟨_,fun function rest => Run.instruction trivial executed,follows⟩
  · refine ⟨state,fun function rest => ?_,before.marker rfl⟩
    rw [erased rfl rfl]
    exact .refl
  · refine ⟨state,fun function rest => ?_,before.part rfl found⟩
    rw [erased rfl rfl]
    exact .refl
  · refine ⟨state,fun function rest => ?_,before.renamed rfl found⟩
    rw [erased rfl rfl]
    exact .refl
  · obtain ⟨state',executed,follows⟩ := before.deleted rfl found stored (environment oracle)
    exact ⟨state',fun function rest => Run.instruction trivial executed,follows⟩
  · obtain ⟨state₁,sizes,before₁,sized⟩ :=
      before.sizes isSupported (environment oracle) isMutated isRead held held'
    obtain ⟨new,state',lowering,executed,follows⟩ : ∃ new state', lowerInst inst = some new ∧
        InPlace.exec (environment oracle) n (new.mapCollections f) state₁ = some state' ∧
        Follows program tree f (superseded values inst ++ dead) b k after state' := by
      by_cases isSwap : ∃ x first last y toFirst, inst = .seqSwap x first last y toFirst
      · obtain ⟨x,first,last,y,toFirst,is⟩ := isSwap
        exact before₁.swap is sized oracle found isMutated isRead held held' run same
      by_cases isWithin : ∃ x first last toFirst, inst = .seqSwapWithin x first last toFirst
      · obtain ⟨x,first,last,toFirst,is⟩ := isWithin
        exact before₁.within is sized oracle found isMutated isRead held held' run same
      cases write : isWrite inst with
      | true =>
        exact before₁.write write sized oracle (fun x first last toFirst is => isWithin ⟨_,_,_,_,is⟩) found
          isMutated isRead held held' run same
      | false =>
        exact before₁.unwritten plain write (fun x first last y toFirst is => isSwap ⟨_,_,_,_,_,is⟩) sized
          oracle found isMutated isRead held held' run same
    refine ⟨state',fun function rest => ?_,follows⟩
    have code : (lowerEntry (endMarkers program.function tree) (n,inst)).map (fun entry =>
        (entry.1,entry.2.mapCollections f)) = (contextualized (endMarkers program.function tree) inst).map
          (fun entry => (entry.1,Inst.backend .size [f entry.2] [] none)) ++ [(n,new.mapCollections f)] := by
      simp [lowerEntry,lowering,Inst.mapCollections]
    rw [code,List.append_assoc]
    exact (sizes function _).trans (Run.instruction trivial executed)

end
end Memoir.Destruction
