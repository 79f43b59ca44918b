import Memoir.DestructionOperations
import Mathlib.Data.List.Nodup

/-! One instruction with value semantics, and the sizes and the call that lowering puts in its place. -/
namespace Memoir.Destruction
open Dominance

/-- What destruction relies on, as it copies nothing: no operand has been superseded, an operation takes a
version once, and a key that is read is there, as a read in place inserts it. -/
structure Linear (dead : List Nat) (inst : Inst) (values : Pure.Store) : Prop where
  live : ∀ operand ∈ inst.mutated ++ inst.read, ∀ t, reference values.env operand = some t → t ∉ dead
  apart : inst.isSsa = true → ((inst.mutated ++ inst.read).filterMap (reference values.env)).Nodup
  present : ∀ object key, inst = .assocRead object key ∨ inst = .assocGet object key →
    ∀ t entries w, reference values.env object = some t → values.memory t = some (.assoc entries) →
      word values.env key = some w → (entries.lookup w).isSome = true

/-- The versions from which an instruction makes new ones, or that it deletes. -/
def superseded (values : Pure.Store) (inst : Inst) : List Nat :=
  if inst.isSsa then inst.mutated.filterMap (reference values.env) else []

structure Before (program : SsaFunction) (tree : Construction.Tree program.function) (f : Value → Value)
    (object : Nat → Nat) (dead : List Nat) (b k : Nat) (n : Name) (inst : Inst) (values : Pure.Store)
    (state : InPlace.Store) : Prop where
  resolves : Resolves program tree f
  at_ : At program n b k inst
  reachable : program.function.graph.Reachable b
  linear : Linear dead inst values
  held : Held object dead values state
  named : Named program tree f object b k values.env state.env

section
variable {program : SsaFunction} {tree : Construction.Tree program.function} {f : Value → Value}
  {object : Nat → Nat} {dead : List Nat} {b k : Nat} {n : Name} {inst : Inst} {values : Pure.Store}
  {state : InPlace.Store} {env : Env Nat} {env' : Env Stamp}

theorem Named.points (named : Named program tree f object b k env env') {v : Value} {t : Nat}
    (usable : ∀ m, v = .name m → program.function.Available m b k) (found : reference env v = some t) :
    Points object env' (f v) t := by
  obtain ⟨m,rfl,at_⟩ := reference_env found
  exact named.references m t (.inr (usable m rfl)) at_

theorem Named.word (named : Named program tree f object b k env env') {s : Scalar} {w : Word}
    (found : Memoir.word env s = some w) : Memoir.word env' s = some w := by
  cases s with
  | constant _ => exact found
  | name n =>
    simp only [Memoir.word] at found ⊢
    rcases at_ : env n with _ | w' | _ | _ | _ <;> rw [at_] at found <;>
      simp only [Option.some.injEq,reduceCtorEq] at found
    subst found
    rw [named.words n w' at_]

theorem Named.words_list (named : Named program tree f object b k env env') {scalars : List Scalar}
    {ws : List Word} (found : scalars.mapM (Memoir.word env) = some ws) :
    scalars.mapM (Memoir.word env') = some ws := by
  simpa using mapM_map (f := Memoir.word env) (g := Memoir.word env') (h := id) (k := id)
    (fun s _ w is => named.word is) found

/-- What a content shows of its object. -/
theorem Held.contents_of (held : Held object dead values state) {ts : List Nat} {ss : List Stamp}
    {cs : List (Content Nat)} (live : ∀ t ∈ ts, t ∉ dead) (same : ss.map Stamp.handle = ts.map object)
    (found : ts.mapM values.memory = some cs) :
    ∃ cs', ss.mapM (InPlace.content state) = some cs' ∧
      cs'.map (Content.map Stamp.handle) = cs.map (Content.map object) := by
  induction ts generalizing ss cs with
  | nil =>
    obtain rfl := List.map_eq_nil_iff.mp same
    obtain rfl := Option.some.inj found
    exact ⟨[],rfl,rfl⟩
  | cons t ts ih =>
    rw [List.map_cons] at same
    obtain ⟨s,ss,rfl,handle,same⟩ := List.map_eq_cons_iff.mp same
    simp only [List.mapM_cons,Option.pure_def,Option.bind_eq_bind,Option.bind_eq_some_iff,
      Option.some.injEq] at found
    obtain ⟨c,head,cs,tail,rfl⟩ := found
    obtain ⟨o,is,shows⟩ := held.contents t c (live t List.mem_cons_self) head
    obtain ⟨cs',rest,shows'⟩ := ih (fun t' member => live t' (List.mem_cons_of_mem _ member)) same tail
    have first : InPlace.content state s = some o.content := by
      simp [InPlace.content,handle,is]
    exact ⟨o.content :: cs',by simp [first,rest],by simp [shows,shows']⟩

/-- Each end marker that the instruction uses stands for the size of the collection it indexes. -/
def Sized (inst : Inst) (values : Pure.Store) (env' : Env Stamp) : Prop :=
  ∀ number operand collection t content i, (number,operand) ∈ operandNumbers inst →
    EndMarkers.contextualizeEnd ⟨0,number⟩ inst = some collection →
      reference values.env collection = some t → values.memory t = some content →
        index values.env operand = some i → Memoir.word env' operand = some (i.getD content.length)

/-- The size instructions run one after another. -/
theorem sizes_run (oracle : Oracle) (cs : List (Name × Value))
    (held : Held object dead values state)
    (named : Named program tree f object b k values.env state.env)
    (markers : ∀ entry ∈ cs, entry.1 ∈ endMarkers program.function tree) (distinct : (cs.map Prod.fst).Nodup)
    (operands : ∀ entry ∈ cs, (∀ m, entry.2 = .name m → program.function.Available m b k) ∧
      ∃ t content, reference values.env entry.2 = some t ∧ t ∉ dead ∧ values.memory t = some content) :
    ∃ state', (∀ function rest, Run function (InPlace.exec oracle) (fun _ => True)
        ⟨b,cs.map (fun entry => (entry.1,Inst.backend .size [f entry.2] [] none)) ++ rest,state⟩
        ⟨b,rest,state'⟩) ∧
      Held object dead values state' ∧ Named program tree f object b k values.env state'.env ∧
      (∀ entry ∈ cs, ∀ t content, reference values.env entry.2 = some t →
        values.memory t = some content → state'.env entry.1 = some (.word content.length)) ∧
      ∀ m, m ∉ cs.map Prod.fst → state'.env m = state.env m := by
  induction cs generalizing state with
  | nil =>
    exact ⟨state,fun _ _ => .refl,held,named,fun _ member => absurd member List.not_mem_nil,fun _ _ => rfl⟩
  | cons entry cs ih =>
    obtain ⟨e,c⟩ := entry
    obtain ⟨usable,t,content,found,live,stored⟩ := operands (e,c) List.mem_cons_self
    obtain ⟨stamp,is,handle⟩ := named.points usable found
    obtain ⟨o,at_,shows⟩ := held.contents t content live stored
    have shown : InPlace.content state stamp = some o.content := by
      simp [InPlace.content,handle,at_]
    have length : o.content.length = content.length := by
      rw [← Content.length_map Stamp.handle,shows,Content.length_map]
    have executed : InPlace.exec oracle e (.backend .size [f c] [] none) state =
        some ((state.bind e (.word o.content.length)).emit [.value (some o.content.length)]) :=
      InPlace.exec_size is shown
    have held₁ : Held object dead values
        ((state.bind e (.word o.content.length)).emit [.value (some o.content.length)]) :=
      held.store rfl rfl rfl
    have named₁ : Named program tree f object b k values.env
        ((state.bind e (.word o.content.length)).emit [.value (some o.content.length)]).env :=
      named.sized (markers (e,c) List.mem_cons_self) (fun m other => State.bind_env_ne state _ other)
        (State.bind_env_self state e _)
    obtain ⟨state',run,held',named',sizes,kept⟩ := ih held₁ named₁
      (fun entry member => markers entry (List.mem_cons_of_mem _ member)) (List.nodup_cons.mp distinct).2
      (fun entry member => operands entry (List.mem_cons_of_mem _ member))
    have bound : state'.env e = some (.word content.length) := by
      rw [kept e (List.nodup_cons.mp distinct).1,← length]
      exact State.bind_env_self state e _
    refine ⟨state',fun function rest => ?_,held',named',?_,?_⟩
    · exact (Run.instruction trivial executed).trans (run function rest)
    · intro entry member t' content' found' stored'
      rcases List.mem_cons.mp member with rfl | member
      · obtain rfl := Option.some.inj (found.symm.trans found')
        obtain rfl := Option.some.inj (stored.symm.trans stored')
        exact bound
      · exact sizes entry member t' content' found' stored'
    · intro m absent
      obtain ⟨other,absent⟩ := List.ne_and_not_mem_of_not_mem_cons absent
      rw [kept m absent]
      exact State.bind_env_ne state _ other

theorem filterMap_sublist {α β : Type} {g g' : α → Option β} (implies : ∀ a b, g a = some b → g' a = some b)
    (xs : List α) : (xs.filterMap g).Sublist (xs.filterMap g') := by
  induction xs with
  | nil => exact List.Sublist.refl _
  | cons x xs ih =>
    cases is : g x with
    | none =>
      rw [List.filterMap_cons_none is]
      cases is' : g' x with
      | none => rwa [List.filterMap_cons_none is']
      | some y => exact (List.filterMap_cons_some is' ▸ ih.cons y)
    | some y =>
      rw [List.filterMap_cons_some is,List.filterMap_cons_some (implies x y is)]
      exact ih.cons_cons y

theorem mapM_of_mem {α β : Type} {g : α → Option β} {xs : List α} {ys : List β}
    (found : xs.mapM g = some ys) {x : α} (member : x ∈ xs) : ∃ y ∈ ys, g x = some y := by
  induction xs generalizing ys with
  | nil => exact absurd member List.not_mem_nil
  | cons x' xs ih =>
    simp only [List.mapM_cons,Option.pure_def,Option.bind_eq_bind,Option.bind_eq_some_iff,
      Option.some.injEq] at found
    obtain ⟨y,head,ys,tail,rfl⟩ := found
    rcases List.mem_cons.mp member with rfl | member
    · exact ⟨y,List.mem_cons_self,head⟩
    · obtain ⟨y',inTail,is⟩ := ih tail member
      exact ⟨y',List.mem_cons_of_mem _ inTail,is⟩

theorem mem_contextualized {markers : List Name} {e : Name} {c : Value} :
    (e,c) ∈ contextualized markers inst ↔ ∃ number, (number,.name e) ∈ operandNumbers inst ∧
      e ∈ markers ∧ EndMarkers.contextualizeEnd ⟨0,number⟩ inst = some c := by
  simp only [contextualized,List.mem_filterMap]
  constructor
  · rintro ⟨⟨number,operand⟩,member,is⟩
    cases operand with
    | constant _ => exact absurd is (by simp)
    | name m =>
      simp only [Option.ite_none_right_eq_some,Option.map_eq_some_iff,Prod.mk.injEq] at is
      obtain ⟨marker,c',collection,rfl,rfl⟩ := is
      exact ⟨number,member,marker,collection⟩
  · rintro ⟨number,member,marker,collection⟩
    exact ⟨(number,.name e),member,by simp [marker,collection]⟩

theorem contextualizeEnd_operand {use : EndMarkers.Use} {c : Value}
    (is : EndMarkers.contextualizeEnd use inst = some c) : c ∈ inst.mutated ++ inst.read := by
  cases inst <;> simp only [EndMarkers.contextualizeEnd,reduceCtorEq,Option.some.injEq] at is
  case seqSwap =>
    subst is
    split <;> simp [Inst.mutated]
  all_goals
    subst is
    simp [Inst.mutated,Inst.read]

theorem contextualized_names (markers : List Name) (inst : Inst) :
    ((contextualized markers inst).map Prod.fst).Sublist inst.names := by
  have scalars : ((operandNumbers inst).map Prod.snd).Sublist inst.scalars := by
    cases inst <;> first
      | exact List.Sublist.refl _
      | exact List.nil_sublist _
  have names : ((contextualized markers inst).map Prod.fst).Sublist
      (((operandNumbers inst).map Prod.snd).filterMap Scalar.name?) := by
    rw [contextualized,List.map_filterMap,List.filterMap_map]
    refine filterMap_sublist ?_ _
    rintro ⟨number,operand⟩ m is
    cases operand with
    | constant _ => exact absurd is (by simp)
    | name m' =>
      dsimp only at is
      split_ifs at is
      · simp only [Option.map_map,Option.map_eq_some_iff] at is
        obtain ⟨_,_,rfl⟩ := is
        rfl
      · exact absurd is (by simp)
  exact (names.trans (scalars.filterMap _)).trans (List.sublist_append_right _ _)

theorem supported_marker (isSupported : supported program.function tree = true) {e : Name}
    (marker : e ∈ endMarkers program.function tree) : program.function.uses.count e ≤ 1 ∧
      onlyUsers program.function e (fun inst =>
        e ∈ (contextualized (endMarkers program.function tree) inst).map Prod.fst) = true := by
  obtain ⟨b,k,reachable,at_⟩ := mem_endMarkers.mp marker
  have checked := List.all_eq_true.mp isSupported (e,.endInst) (mem_visited.mpr ⟨b,k,reachable,at_⟩)
  simpa using checked

theorem sublist_flatMap {α β : Type} (g : α → List β) {xs : List α} {x : α} (member : x ∈ xs) :
    (g x).Sublist (xs.flatMap g) := by
  rw [List.flatMap_def]
  exact List.sublist_flatten_of_mem (List.mem_map_of_mem member)

theorem uses_of_instruction (at_ : At program n b k inst) : inst.names.Sublist program.function.uses := by
  obtain ⟨block,found,entry⟩ := at_
  have inBlock : inst.names.Sublist (block.body.flatMap fun entry => entry.2.names) :=
    sublist_flatMap (fun entry => entry.2.names) (List.mem_of_getElem? entry)
  refine List.Sublist.trans ?_ (sublist_flatMap (fun block : BasicBlock => _) (List.mem_of_getElem? found))
  exact (inBlock.trans (List.sublist_append_right _ _)).trans (List.sublist_append_left _ _)

theorem contextualized_distinct (isSupported : supported program.function tree = true)
    (at_ : At program n b k inst) :
    ((contextualized (endMarkers program.function tree) inst).map Prod.fst).Nodup := by
  rw [List.nodup_iff_count_le_one]
  intro e
  by_cases member : e ∈ (contextualized (endMarkers program.function tree) inst).map Prod.fst
  · obtain ⟨⟨_,c⟩,inList,rfl⟩ := List.mem_map.mp member
    obtain ⟨_,_,marker,_⟩ := mem_contextualized.mp inList
    exact Nat.le_trans (((contextualized_names _ inst).trans (uses_of_instruction at_)).count_le _)
      (supported_marker isSupported marker).1
  · rw [List.count_eq_zero.mpr member]
    exact Nat.zero_le 1

/-- The sizes that are put before the instruction. -/
theorem Before.sizes (before : Before program tree f object dead b k n inst values state)
    (isSupported : supported program.function tree = true) (oracle : Oracle)
    {mutated read : List Nat} {contents contents' : List (Content Nat)}
    (isMutated : inst.mutated.mapM (reference values.env) = some mutated)
    (isRead : inst.read.mapM (reference values.env) = some read)
    (held : mutated.mapM values.memory = some contents)
    (held' : read.mapM values.memory = some contents') :
    ∃ state', (∀ function rest, Run function (InPlace.exec oracle) (fun _ => True)
        ⟨b,(contextualized (endMarkers program.function tree) inst).map (fun entry =>
          (entry.1,Inst.backend .size [f entry.2] [] none)) ++ rest,state⟩ ⟨b,rest,state'⟩) ∧
      Before program tree f object dead b k n inst values state' ∧ Sized inst values state'.env := by
  have stored : ∀ c ∈ inst.mutated ++ inst.read, ∃ t content, reference values.env c = some t ∧
      values.memory t = some content := by
    intro c member
    rcases List.mem_append.mp member with member | member
    · obtain ⟨t,inMutated,found⟩ := mapM_of_mem isMutated member
      obtain ⟨content,_,is⟩ := mapM_of_mem held inMutated
      exact ⟨t,content,found,is⟩
    · obtain ⟨t,inRead,found⟩ := mapM_of_mem isRead member
      obtain ⟨content,_,is⟩ := mapM_of_mem held' inRead
      exact ⟨t,content,found,is⟩
  obtain ⟨state',run,heldAfter,namedAfter,sizes,_⟩ := sizes_run oracle
    (contextualized (endMarkers program.function tree) inst) before.held before.named
    (by
      rintro ⟨e,c⟩ member
      obtain ⟨_,_,marker,_⟩ := mem_contextualized.mp member
      exact marker)
    (contextualized_distinct isSupported before.at_)
    (by
      rintro ⟨e,c⟩ member
      obtain ⟨_,_,_,collection⟩ := mem_contextualized.mp member
      have operand := contextualizeEnd_operand collection
      obtain ⟨t,content,found,is⟩ := stored c operand
      refine ⟨?_,t,content,found,before.linear.live c operand t found,is⟩
      rintro m rfl
      exact operand_available before.at_ before.reachable (List.mem_append_left _ operand))
  refine ⟨state',run,⟨before.resolves,before.at_,before.reachable,before.linear,heldAfter,namedAfter⟩,?_⟩
  intro number operand collection t content i member indexed found is evaluated
  cases operand with
  | constant w =>
    obtain rfl := Option.some.inj evaluated
    rfl
  | name m =>
    simp only [index] at evaluated
    rcases at_ : values.env m with _ | w | _ | _ | _ <;> rw [at_] at evaluated <;>
      simp only [Option.some.injEq,reduceCtorEq] at evaluated
    · subst evaluated
      simp [Memoir.word,namedAfter.words m w at_]
    · subst evaluated
      have size := sizes (m,collection) (mem_contextualized.mpr
        ⟨number,member,before.named.marked m at_,indexed⟩) t content found is
      simp [Memoir.word,size]

end
end Memoir.Destruction
