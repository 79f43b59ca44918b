import Memoir.DestructionOperations
import Memoir.RoundTripLowered
import Memoir.Unversioned

/-! The lowered function follows the program in place: at each point the versions at the ends of their
chains stand for the objects of their variables, and no object of the program is missing. -/
namespace Memoir

namespace Unversioned

variable {state state' : Store} {operation : Operation Nat} {mutated read : List Nat}
  {outcome : Outcome Nat}

theorem exec_some {oracle : Oracle} {n : Name} {inst : Inst} {after : Store}
    (plain : inst.isBackend = false) (ran : exec oracle n inst state = some after) :
    (∃ function operands words, inst = .scalar function operands ∧
      operands.mapM (word state.env) = some words ∧ after = state.bind n (.word (function words))) ∨
    (inst.isSsa = false ∧ ∃ operation mutated read outcome,
      inst.operation state.env (oracle state.trace) = some operation ∧
      inst.mutated.mapM (reference state.env) = some mutated ∧
      inst.read.mapM (reference state.env) = some read ∧
      runOn state operation mutated read = some outcome ∧
      after = (bindResult (consume (writeBack state (mutated.zip outcome.mutated)) inst read) n inst
        mutated outcome).emit outcome.events) := by
  unfold exec at ran
  split at ran
  · rename_i function operands
    simp only [Option.pure_def,Option.bind_eq_bind,Option.bind_eq_some_iff,Option.some.injEq] at ran
    obtain ⟨words,evaluated,same⟩ := ran
    exact .inl ⟨function,operands,words,rfl,evaluated,same.symm⟩
  · exact absurd plain (by simp [Inst.isBackend])
  · by_cases isSsa : inst.isSsa = true
    · simp [isSsa] at ran
    · simp only [isSsa,Bool.false_eq_true,if_false,Option.pure_def,Option.bind_eq_bind,
        Option.bind_eq_some_iff,Option.some.injEq] at ran
      obtain ⟨operation,found,mutated,isMutated,read,isRead,outcome,run,same⟩ := ran
      exact .inr ⟨eq_false_of_ne_true isSsa,operation,mutated,read,outcome,found,isMutated,isRead,
        run,same.symm⟩

theorem exec_operation {oracle : Oracle} {n : Name} {inst : Inst} (isSsa : inst.isSsa = false)
    (found : inst.operation state.env (oracle state.trace) = some operation)
    (isMutated : inst.mutated.mapM (reference state.env) = some mutated)
    (isRead : inst.read.mapM (reference state.env) = some read)
    (ran : runOn state operation mutated read = some outcome) :
    exec oracle n inst state = some ((bindResult
      (consume (writeBack state (mutated.zip outcome.mutated)) inst read) n inst mutated outcome).emit
        outcome.events) := by
  unfold exec
  split
  · exact absurd found (by simp [Inst.operation])
  · exact absurd found (by simp [Inst.operation])
  · simp only [isSsa,Bool.false_eq_true,if_false,found,isMutated,isRead,ran,Option.bind_eq_bind,
      Option.bind_some,Option.pure_def]

theorem mapM_mono {α β : Type} {g g' : α → Option β} (mono : ∀ a b, g a = some b → g' a = some b)
    {xs : List α} {ys : List β} (found : xs.mapM g = some ys) : xs.mapM g' = some ys := by
  simpa using mapM_map (h := id) (k := id) (fun a _ b is => mono a b is) found

/-- Objects that are not there before do not matter. -/
theorem runOn_mono (memory : ∀ h c, state.memory h = some c → state'.memory h = some c)
    (ran : runOn state operation mutated read = some outcome) :
    runOn state' operation mutated read = some outcome := by
  unfold runOn at ran ⊢
  split at ran
  · split_ifs at ran ⊢
    all_goals
      simp only [Option.bind_eq_bind,Option.bind_eq_some_iff] at ran ⊢
    · obtain ⟨c,found,ran⟩ := ran
      exact ⟨c,memory _ _ found,ran⟩
    · obtain ⟨c,found,d,found',ran⟩ := ran
      exact ⟨c,memory _ _ found,d,memory _ _ found',ran⟩
  · split_ifs at ran ⊢ with same
    · exact ran
    · simp only [Option.bind_eq_bind,Option.bind_eq_some_iff] at ran ⊢
      obtain ⟨c,found,d,found',ran⟩ := ran
      exact ⟨c,memory _ _ found,d,memory _ _ found',ran⟩
  · simp only [Option.bind_eq_bind,Option.bind_eq_some_iff] at ran ⊢
    obtain ⟨cs,found,ds,found',ran⟩ := ran
    exact ⟨cs,mapM_mono memory found,ds,mapM_mono memory found',ran⟩

/-- What is mutated is there. -/
theorem runOn_mutated (ran : runOn state operation mutated read = some outcome) :
    ∀ h ∈ mutated, ∃ c, state.memory h = some c := by
  unfold runOn at ran
  split at ran
  · rename_i x y
    split_ifs at ran with same
    all_goals
      simp only [Option.bind_eq_bind,Option.bind_eq_some_iff] at ran
    · obtain ⟨c,found,_⟩ := ran
      intro h member
      simp only [List.mem_cons,List.not_mem_nil,or_false] at member
      rcases member with rfl | rfl
      · exact ⟨c,found⟩
      · exact ⟨c,same ▸ found⟩
    · obtain ⟨c,found,d,found',_⟩ := ran
      intro h member
      simp only [List.mem_cons,List.not_mem_nil,or_false] at member
      rcases member with rfl | rfl
      · exact ⟨c,found⟩
      · exact ⟨d,found'⟩
  · rename_i x y
    by_cases same : x = y
    · simp [same] at ran
    · simp only [same,if_false,Option.bind_eq_bind,Option.bind_eq_some_iff] at ran
      obtain ⟨c,found,_⟩ := ran
      intro h member
      rw [List.mem_singleton.mp member]
      exact ⟨c,found⟩
  · simp only [Option.bind_eq_bind,Option.bind_eq_some_iff] at ran
    obtain ⟨cs,found,_⟩ := ran
    intro h member
    obtain ⟨c,_,is⟩ := Destruction.mapM_of_mem found member
    exact ⟨c,is⟩

/-- The second store has the objects of the first, and its environment has been called alike. -/
structure Covers (state state' : Store) : Prop where
  memory : ∀ h c, state.memory h = some c → state'.memory h = some c
  next : state'.next = state.next
  calls : Destruction.calls state'.trace = Destruction.calls state.trace
  bounded : ∀ h c, state.memory h = some c → h < state.next

namespace Covers

variable (covers : Covers state state')
include covers

theorem bind (n : Name) (value : RtValue Nat) : Covers (state.bind n value) state' :=
  ⟨covers.memory,covers.next,covers.calls,covers.bounded⟩

theorem bind_right (n : Name) (value : RtValue Nat) : Covers state (state'.bind n value) :=
  ⟨covers.memory,covers.next,covers.calls,covers.bounded⟩

theorem emit (events : List Event) : Covers (state.emit events) (state'.emit events) where
  memory := covers.memory
  next := covers.next
  calls := by
    have same := covers.calls
    unfold Destruction.calls at same ⊢
    simp [State.emit,same]
  bounded := covers.bounded

theorem free (handles : List Nat) : Covers (Unversioned.free state handles) state' := by
  have kept : ∀ h c, (Unversioned.free state handles).memory h = some c → state.memory h = some c := by
    intro h c found
    simp only [Unversioned.free] at found
    split_ifs at found
    exact found
  exact ⟨fun h c found => covers.memory h c (kept h c found),covers.next,covers.calls,
    fun h c found => covers.bounded h c (kept h c found)⟩

theorem mutate {handle : Nat} (bound : handle < state.next) (content : Content Nat) :
    Covers (Unversioned.mutate state handle content) (Unversioned.mutate state' handle content) where
  memory := by
    intro h c found
    simp only [Unversioned.mutate] at found ⊢
    by_cases same : h = handle
    · subst same
      simpa using found
    · rw [Function.update_of_ne same] at found ⊢
      exact covers.memory h c found
  next := covers.next
  calls := covers.calls
  bounded := by
    intro h c found
    simp only [Unversioned.mutate] at found
    by_cases same : h = handle
    · exact same ▸ bound
    · rw [Function.update_of_ne same] at found
      exact covers.bounded h c found

theorem writeBack (entries : List (Nat × Option (Content Nat)))
    (bound : ∀ entry ∈ entries, entry.1 < state.next) :
    Covers (Unversioned.writeBack state entries) (Unversioned.writeBack state' entries) := by
  induction entries generalizing state state' with
  | nil => exact covers
  | cons entry rest ih =>
    obtain ⟨handle,content⟩ := entry
    have below := fun other member => bound other (List.mem_cons_of_mem _ member)
    cases content with
    | none => exact ih covers below
    | some content => exact ih (covers.mutate (bound _ List.mem_cons_self) content) below

theorem allocate (n m : Name) (content : Content Nat) :
    Covers (Unversioned.allocate state n content) (Unversioned.allocate state' m content) where
  memory := by
    intro h c found
    simp only [Unversioned.allocate,State.bind,covers.next] at found ⊢
    by_cases same : h = state.next
    · subst same
      simpa using found
    · rw [Function.update_of_ne same] at found ⊢
      exact covers.memory h c found
  next := congrArg (· + 1) covers.next
  calls := covers.calls
  bounded := by
    intro h c found
    simp only [Unversioned.allocate,State.bind] at found ⊢
    by_cases same : h = state.next
    · omega
    · rw [Function.update_of_ne same] at found
      exact Nat.lt_succ_of_lt (covers.bounded h c found)

/-- The two stores after the same operation. -/
theorem ran (isRun : runOn state operation mutated read = some outcome) :
    runOn state' operation mutated read = some outcome ∧
      Covers (Unversioned.writeBack state (mutated.zip outcome.mutated))
        (Unversioned.writeBack state' (mutated.zip outcome.mutated)) := by
  refine ⟨runOn_mono covers.memory isRun,covers.writeBack _ ?_⟩
  intro entry member
  obtain ⟨c,found⟩ := runOn_mutated isRun entry.1 (List.of_mem_zip member).1
  exact covers.bounded _ _ found

end Covers

end Unversioned

namespace Construction.RoundTrip
open Dominance Destruction
open Unversioned (Covers)

/-- What a point names: the names of the program, and the versions that are the ends of their chains. -/
structure Mirrored (program : Program) (tree : Tree program.function) (inserted : List (Name × List Nat))
    (f : Value → Value) (b i : Nat) (env env' : Env Nat) : Prop where
  names : ∀ n, ¬Name.IsNew n → program.function.splitResult n = false → env' n = env n
  versions : ∀ x ∈ memoirNames program.function, ∀ e, Version program.function inserted x e →
    dominates tree e (.before b i) = true → f (.name e) = .name e → env' e = env x

section
variable {program : Program} {tree : Tree program.function} {inserted : List (Name × List Nat)}
  {tree' : Tree (constructed program.function tree inserted)} {f : Value → Value}
  {b i : Nat} {inst : Inst} {env env' after after' : Env Nat}

theorem Mirrored.scalar_name (mirrored : Mirrored program tree inserted f b i env env') {n : Name}
    (defined : program.function.Defined n) (isScalar : program.function.IsScalar n) : env' n = env n := by
  refine mirrored.names n (Program.not_isNew program defined) ?_
  unfold Function.splitResult
  cases at_ : program.function.instruction? n with
  | none => rfl
  | some old =>
    have isMut := isScalar.2 old at_
    cases old <;> simp_all [Inst.isMut,Inst.isSplit]

/-- What a version dominates the first one does. -/
theorem version_below (placed : Placed program inserted) {x e : Name} {p : Point}
    (variable_ : x ∈ memoirNames program.function) (version : Version program.function inserted x e)
    (above : dominates tree e p = true) (reachable : program.function.graph.Reachable p.block) :
    dominates tree (firstVersion program.function x) p = true := by
  by_cases first : e = firstVersion program.function x
  · exact first ▸ above
  · obtain ⟨q',here,covers⟩ := placed.first_above tree variable_ version first
    exact dominates_trans tree here covers above reachable

section
variable (ends : Ends program tree inserted tree' f) (renamable : Renamable program tree)
  (placed : Placed program inserted) (closed : Closed tree inserted)
include ends renamable placed closed

/-- What is coalesced is no end of a chain. -/
theorem Ends.moved {k : Nat} {operand : Value} (reachable : program.function.graph.Reachable b)
    (at_ : program.function.instruction? (.inst b i) = some inst) (renewed : (k,operand) ∈ inst.renewed) :
    f (.name (.ssa b i k)) ≠ .name (.ssa b i k) := by
  intro same
  have becomes := ends.renewed reachable at_ renewed
  have used := Inst.mutated_operands (renewed_mutated renewed).1
  cases operand with
  | name x =>
    have nearest := operand_nearest renamable placed closed reachable at_ used
    obtain ⟨e,is,_,above,_⟩ := ends.version renamable placed closed (operand_variable at_ used) nearest.1
      nearest.2.1 reachable
    obtain rfl := Value.name.inj (same.symm.trans (becomes.trans is))
    exact not_dominates_site tree rfl above
  | constant id =>
    have fixed : f (.constant id) = .constant id := ends.constant rfl
    exact absurd (same.symm.trans (becomes.trans fixed)) (by simp)
  | null =>
    have fixed : f .null = .null := ends.constant rfl
    exact absurd (same.symm.trans (becomes.trans fixed)) (by simp)

/-- After an instruction: its result, and the versions that it has made. -/
theorem Mirrored.next (mirrored : Mirrored program tree inserted f b i env env')
    (reachable : program.function.graph.Reachable b)
    (at_ : program.function.instruction? (.inst b i) = some inst)
    (kept : ∀ n, n ≠ .inst b i → after n = env n)
    (kept' : ∀ n, n ≠ .inst b i → (∀ k, n ≠ .ssa b i k) → after' n = env' n)
    (result : inst.isSplit = false → after' (.inst b i) = after (.inst b i))
    (part : inst.isSplit = true → after' (.ssa b i 0) = after (.inst b i))
    (made : ∀ x k, (.name x,k) ∈ inst.redefines → (∀ operand, (k,operand) ∉ inst.renewed) →
      after' (.ssa b i k) = env x) :
    Mirrored program tree inserted f b (i + 1) after after' where
  names := by
    intro n old plain
    by_cases same : n = .inst b i
    · subst same
      refine result ?_
      simpa [Function.splitResult,at_] using plain
    · rw [kept n same,kept' n same (by rintro k rfl; exact old trivial)]
      exact mirrored.names n old plain
  versions := by
    intro x variable_ e version above fixed
    have old := Program.not_isNew_variable variable_
    have here : program.function.graph.Reachable (Point.before b i).block := reachable
    rcases dominates_previous above with at' | below
    · rcases version_here at_ variable_ version at' with ⟨rfl,rfl⟩ | ⟨k,rfl,redefines⟩
      · by_cases isSplit : inst.isSplit = true
        · have first : firstVersion program.function (.inst b i) = .ssa b i 0 := by
            simp [firstVersion,Function.splitResult,at_,isSplit]
          rw [first]
          exact part isSplit
        · rw [firstVersion_inst at_ (eq_false_of_ne_true isSplit)]
          exact result (eq_false_of_ne_true isSplit)
      · have used := Inst.mutated_operands (Inst.redefines_mutated redefines)
        have apart : x ≠ .inst b i := by
          rintro rfl
          have ready : Ready program tree (.inst b i) (.before b i) := ready_operand at_ used reachable
          exact not_dominates_site tree (firstVersion_site _ _) ready.2
        rw [kept x apart]
        exact made x k redefines fun operand renewed =>
          ends.moved renamable placed closed reachable at_ renewed fixed
    · have apart : x ≠ .inst b i := by
        rintro rfl
        exact not_dominates_site tree (firstVersion_site _ _)
          (version_below placed variable_ version below here)
      have other : e ≠ .inst b i := by
        rintro rfl
        exact not_dominates_site tree rfl below
      have other' : ∀ k, e ≠ .ssa b i k := by
        rintro k rfl
        exact not_dominates_site tree rfl below
      rw [kept x apart,kept' e other other']
      exact mirrored.versions x variable_ e version below fixed

variable (mirrored : Mirrored program tree inserted f b i env env')
  (reachable : program.function.graph.Reachable b)
  (at_ : program.function.instruction? (.inst b i) = some inst)
include mirrored reachable at_

theorem Mirrored.operand {operand : Value} (used : operand ∈ inst.operands) :
    reference env' (f (rename (nearest program.function tree inserted (.before b i)) operand)) =
      reference env operand := by
  cases operand with
  | name x =>
    have nearest := operand_nearest renamable placed closed reachable at_ used
    have variable_ := operand_variable at_ used
    obtain ⟨e,is,version,above,fixed⟩ := ends.version renamable placed closed variable_ nearest.1
      nearest.2.1 reachable
    simp only [rename,is,reference,mirrored.versions x variable_ e version above fixed]
  | constant _ => exact congrArg (reference env') (ends.constant rfl)
  | null => exact congrArg (reference env') (ends.constant rfl)

omit ends placed closed reachable in
theorem Mirrored.unrenamed {operand : Value} (used : operand ∈ inst.unrenamed) :
    reference env' operand = reference env operand := by
  cases operand with
  | name x =>
    obtain ⟨block,n,found,entry⟩ := Function.instruction?_eq_some at_
    have old := Program.not_isNew_variable (operand_variable at_ (Inst.unrenamed_operands used))
    have plain := renamable.unrenamed block (List.mem_of_getElem? found) n inst
      (List.mem_of_getElem? entry) x used
    simp only [reference,mirrored.names x old plain]
  | constant _ => rfl
  | null => rfl

omit ends renamable placed closed reachable in
theorem Mirrored.scalar {x : Name} (used : .name x ∈ inst.scalars ∨
    inst.element = some (.scalar (.name x))) : env' x = env x := by
  obtain ⟨block,n,found,entry⟩ := Function.instruction?_eq_some at_
  have inBlocks := List.mem_of_getElem? found
  have inBody := List.mem_of_getElem? entry
  have scalars := (program.scalars block inBlocks).1 n inst inBody
  have named : x ∈ inst.names := by
    simp only [Inst.names,List.mem_append,List.mem_filterMap]
    rcases used with used | written
    · exact .inr ⟨_,used,rfl⟩
    · exact .inl (.inr ⟨.scalar (.name x),by simp [written],rfl⟩)
  exact mirrored.scalar_name ((program.ssa.defined block inBlocks).1 n inst inBody x named)
    (used.elim (scalars.1 x) (scalars.2 x))

omit ends renamable placed closed reachable in
theorem Mirrored.word {s : Scalar} (used : s ∈ inst.scalars) : word env' s = word env s := by
  cases s with
  | constant _ => rfl
  | name x => simp only [Memoir.word,mirrored.scalar at_ (.inl used)]

omit ends placed closed reachable in
theorem Mirrored.element {element : Element} (written : inst.element = some element) :
    datum env' element = datum env element := by
  rcases element with (_ | x) | v
  · rfl
  · simp only [datum,Memoir.word,mirrored.scalar at_ (.inr written)]
  · have used : v ∈ inst.unrenamed := by simp [Inst.unrenamed,written,Element.collection?]
    simp only [datum,mirrored.unrenamed renamable at_ used]

end

end

end Construction.RoundTrip
end Memoir
