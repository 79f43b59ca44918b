import Memoir.Handles
import Memoir.Simulation

/-! The call that an operation becomes does to the objects what the operation does to the values. -/
namespace Memoir

namespace Content
variable {ρ σ : Type}

def length : Content ρ → Nat
  | sequence elements => elements.length
  | assoc entries => entries.length

@[simp] theorem length_map (rename : ρ → σ) (content : Content ρ) :
    (content.map rename).length = content.length := by
  cases content <;> simp [length]

end Content

/-- The end of a sequence as an index, for operands of these lengths. -/
def Operation.atEnds {ρ : Type} (mutated read : List Nat) : Operation ρ → Operation ρ
  | seqInsert index value => seqInsert (some (index.getD (mutated.getD 0 0))) value
  | seqInsertSeq index => seqInsertSeq (some (index.getD (mutated.getD 0 0)))
  | seqRemove first last =>
    seqRemove (some (first.getD (mutated.getD 0 0))) (some (last.getD (mutated.getD 0 0)))
  | seqSwap first last toFirst => seqSwap (some (first.getD (mutated.getD 0 0)))
      (some (last.getD (mutated.getD 0 0))) (some (toFirst.getD (mutated.getD 1 0)))
  | seqSwapWithin first last toFirst => seqSwapWithin (some (first.getD (mutated.getD 0 0)))
      (some (last.getD (mutated.getD 0 0))) (some (toFirst.getD (mutated.getD 0 0)))
  | seqCopy first last =>
    seqCopy (some (first.getD (read.getD 0 0))) (some (last.getD (read.getD 0 0)))
  | operation => operation

theorem Operation.run_atEnds {ρ : Type} (operation : Operation ρ) (mutated read : List (Content ρ)) :
    (operation.atEnds (mutated.map Content.length) (read.map Content.length)).run mutated read =
      operation.run mutated read := by
  cases operation
  case seqSwap =>
    rcases mutated with _ | ⟨_ | _,_ | ⟨_ | _,_ | _⟩⟩ <;> rcases read with _ | _ <;> rfl
  case seqInsertSeq =>
    rcases mutated with _ | ⟨_ | _,_ | _⟩ <;> rcases read with _ | ⟨_ | _,_ | _⟩ <;> rfl
  case seqCopy =>
    rcases mutated with _ | _ <;> rcases read with _ | ⟨_ | _,_ | _⟩ <;> rfl
  case seqInsert | seqRemove | seqSwapWithin =>
    rcases mutated with _ | ⟨_ | _,_ | _⟩ <;> rcases read with _ | _ <;> rfl
  all_goals rfl

theorem Operation.copy_outcome {ρ : Type} {first last : Option Word} {mutated read : List (Content ρ)}
    {outcome : Outcome ρ} (ran : (Operation.seqCopy first last).run mutated read = some outcome) :
    ∃ c, outcome = .create c := by
  unfold Operation.run at ran
  split at ran <;> simp only [seqCopy.injEq,reduceCtorEq] at *
  simp only [Option.ite_none_right_eq_some] at ran
  exact ⟨_,(Option.some.inj ran.2).symm⟩

theorem mapM_filterMap {α β : Type} {f : α → Option β} {xs : List α} {ys : List β}
    (found : xs.mapM f = some ys) : xs.filterMap f = ys := by
  induction xs generalizing ys with
  | nil => exact Option.some.inj found
  | cons x xs ih =>
    simp only [List.mapM_cons,Option.pure_def,Option.bind_eq_bind,Option.bind_eq_some_iff,
      Option.some.injEq] at found
    obtain ⟨y,head,ys,tail,rfl⟩ := found
    simp [head,ih tail]

namespace InPlace

/-- Different objects do not interfere. -/
theorem runOn_apart {state : Store} {operation : Operation Stamp} {mutated read : List Stamp}
    {contents contents' : List (Content Stamp)}
    (apart : mutated ≠ [] → ((mutated ++ read).map Stamp.handle).Nodup)
    (held : mutated.mapM (content state) = some contents)
    (held' : read.mapM (content state) = some contents') :
    runOn state operation mutated read = operation.run contents contents' := by
  unfold runOn
  split
  · rename_i x y
    have different : x.handle ≠ y.handle := by simpa using apart (by simp)
    obtain ⟨c,d,isFirst,isSecond,rfl⟩ := mapM_pair held
    obtain rfl := Option.some.inj held'
    simp [different,isFirst,isSecond]
  · rename_i x y
    have different : x.handle ≠ y.handle := by simpa using apart (by simp)
    obtain ⟨c,isFirst,rfl⟩ := mapM_singleton held
    obtain ⟨d,isSecond,rfl⟩ := mapM_singleton held'
    simp [different,isFirst,isSecond]
  · simp [held,held']

/-- A swap with itself exchanges within an object. -/
theorem runOn_within {state : Store} {first last toFirst : Option Word} {stamp : Stamp}
    {held : Content Stamp} (found : content state stamp = some held) :
    runOn state (.seqSwap first last toFirst) [stamp,stamp] [] =
      (Operation.seqSwapWithin first last toFirst).run [held] [] := by
  simp [runOn,found]

theorem exec_lowered {oracle : Oracle} {n : Name} {inst : Inst} {state : Store}
    {operation : Operation Stamp} {mutated read : List Stamp} {outcome : Outcome Stamp}
    (notScalar : ∀ function operands, inst ≠ .scalar function operands)
    (notFree : ∀ operand, inst ≠ .backend .free [operand] [] none) (isSsa : inst.isSsa = false)
    (isMut : inst.isMut = false)
    (found : inst.operation state.env (oracle state.trace) = some operation)
    (isMutated : inst.mutated.mapM (reference state.env) = some mutated)
    (isRead : inst.read.mapM (reference state.env) = some read)
    (ran : runOn state operation mutated read = some outcome) :
    exec oracle n inst state = some ((bindResult
      (writeBack state (inst.mutated.zip (mutated.zip outcome.mutated))) n inst mutated outcome).emit
        outcome.events) := by
  have kept : ∀ after, consume after inst read = after := by
    intro after
    cases inst <;> simp only [Inst.isMut,Bool.true_eq_false] at isMut <;> rfl
  unfold exec
  split
  · rename_i function operands
    exact absurd rfl (notScalar function operands)
  · rename_i operand
    exact absurd rfl (notFree operand)
  · simp only [isSsa,Bool.false_eq_true,if_false,found,isMutated,isRead,ran,kept,Option.bind_eq_bind,
      Option.bind_some,Option.pure_def]

theorem exec_size {oracle : Oracle} {n : Name} {v : Value} {state : Store} {stamp : Stamp}
    {held : Content Stamp} (found : reference state.env v = some stamp)
    (at_ : content state stamp = some held) :
    exec oracle n (.backend .size [v] [] none) state =
      some ((state.bind n (.word held.length)).emit [.value (some held.length)]) := by
  have isMutated : (Inst.backend .size [v] [] none).mutated.mapM (reference state.env) = some [] := rfl
  have isRead : (Inst.backend .size [v] [] none).read.mapM (reference state.env) = some [stamp] := by
    simp [Inst.read,found]
  have held' : [stamp].mapM (content state) = some [held] := by simp [at_]
  have ran : runOn state .size [] [stamp] = some (.read (.scalar held.length)) := by
    rw [runOn_apart (fun none => absurd rfl none) rfl held']
    cases held <;> rfl
  exact exec_lowered (by simp) (by simp) rfl rfl rfl isMutated isRead ran

end InPlace

namespace Pure

theorem exec_some {oracle : Oracle} {n : Name} {inst : Inst} {state after : Store}
    (ran : exec oracle n inst state = some after) :
    (∃ function operands words, inst = .scalar function operands ∧
      operands.mapM (word state.env) = some words ∧ after = state.bind n (.word (function words))) ∨
    (inst = .endInst ∧ after = state.bind n .endOfSequence) ∨
    (∃ pair second x y, inst = .extractValue pair second ∧ state.env pair = some (.pair x y) ∧
      after = state.bind n (.reference (if second then y else x))) ∨
    (∃ kind v t, inst = .collectionPhi kind v ∧ reference state.env v = some t ∧
      after = state.bind n (.reference t)) ∨
    (∃ v t content, inst = .deleteCollection v ∧ reference state.env v = some t ∧
      state.memory t = some content ∧ after = state) ∨
    (∃ operation mutated read contents contents' outcome,
      inst.operation state.env (oracle state.trace) = some operation ∧
      inst.mutated.mapM (reference state.env) = some mutated ∧
      inst.read.mapM (reference state.env) = some read ∧
      mutated.mapM state.memory = some contents ∧ read.mapM state.memory = some contents' ∧
      operation.run contents contents' = some outcome ∧
      after = bindResult ((allocate state
        ((if inst.isSsa then outcome.mutated.reduceOption else []) ++ outcome.created.toList)).1.emit
          outcome.events) n (allocate state
        ((if inst.isSsa then outcome.mutated.reduceOption else []) ++ outcome.created.toList)).2
          outcome.result) := by
  unfold exec at ran
  split at ran
  · rename_i function operands
    simp only [Option.pure_def,Option.bind_eq_bind,Option.bind_eq_some_iff,Option.some.injEq] at ran
    obtain ⟨words,evaluated,same⟩ := ran
    exact .inl ⟨function,operands,words,rfl,evaluated,same.symm⟩
  · exact .inr (.inl ⟨rfl,(Option.some.inj ran).symm⟩)
  · rename_i pair second
    split at ran
    · rename_i x y found
      exact .inr (.inr (.inl ⟨pair,second,x,y,rfl,found,(Option.some.inj ran).symm⟩))
    · exact absurd ran (by simp)
  · rename_i kind v
    simp only [Option.pure_def,Option.bind_eq_bind,Option.bind_eq_some_iff,Option.some.injEq] at ran
    obtain ⟨t,found,same⟩ := ran
    exact .inr (.inr (.inr (.inl ⟨kind,v,t,rfl,found,same.symm⟩)))
  · rename_i v
    simp only [Option.pure_def,Option.bind_eq_bind,Option.bind_eq_some_iff,Option.some.injEq] at ran
    obtain ⟨t,found,content,stored,same⟩ := ran
    exact .inr (.inr (.inr (.inr (.inl ⟨v,t,content,rfl,found,stored,same.symm⟩))))
  · by_cases isMut : inst.isMut = true
    · simp [isMut] at ran
    · simp only [isMut,Bool.false_eq_true,if_false,Option.pure_def,Option.bind_eq_bind,
        Option.bind_eq_some_iff,Option.some.injEq] at ran
      obtain ⟨operation,found,mutated,isMutated,contents,held,read,isRead,contents',held',outcome,run,
        same⟩ := ran
      exact .inr (.inr (.inr (.inr (.inr ⟨operation,mutated,read,contents,contents',outcome,found,isMutated,
        isRead,held,held',run,same.symm⟩))))

end Pure
end Memoir
