import Memoir.DestructionChains
import Memoir.Tokens

/-! The values of an SSA function and the objects of the lowered one: each value that no version has
superseded is the content of an object of its own. -/
namespace Memoir.Destruction
open Dominance

def calls (trace : List Event) : List Event :=
  trace.filter fun
    | .called _ _ _ => true
    | .value _ => false

/-- What the environment answers depends on the calls that it has seen. -/
def environment (oracle : Oracle) : Oracle := fun trace => oracle (calls trace)

/-- The object of each value; the values of `dead` have been superseded. -/
structure Held (object : Nat → Nat) (dead : List Nat) (values : Pure.Store) (state : InPlace.Store) :
    Prop where
  made : ∀ t content, values.memory t = some content →
    t < values.next ∧ ∀ r ∈ content.references, r < values.next
  named : ∀ n value, values.env n = some value → ∀ r ∈ value.references, r < values.next
  superseded : ∀ t ∈ dead, t < values.next
  handles : ∀ t, t < values.next → object t < state.next
  contents : ∀ t content, t ∉ dead → values.memory t = some content →
    ∃ held, state.memory (object t) = some held ∧ held.content.map Stamp.handle = content.map object
  apart : ∀ t t', t ∉ dead → t' ∉ dead → values.memory t ≠ none → values.memory t' ≠ none →
    object t = object t' → t = t'
  traced : calls state.trace = calls values.trace

section
variable {object : Nat → Nat} {dead : List Nat} {values : Pure.Store} {state : InPlace.Store}

theorem update_below {h : Nat} {t : Nat} (bound : t < values.next) :
    Function.update object values.next h t = object t :=
  Function.update_of_ne (Nat.ne_of_lt bound) _ _

theorem map_below {h : Nat} {content : Content Nat} (made : ∀ r ∈ content.references, r < values.next) :
    content.map (Function.update object values.next h) = content.map object :=
  content.map_congr _ _ fun r member => update_below (made r member)

namespace Held

theorem store (held : Held object dead values state) {after : InPlace.Store}
    (memory : after.memory = state.memory) (next : after.next = state.next)
    (trace : calls after.trace = calls state.trace) :
    Held object dead values after where
  made := held.made
  named := held.named
  superseded := held.superseded
  handles := by
    rw [next]
    exact held.handles
  contents := by
    rw [memory]
    exact held.contents
  apart := held.apart
  traced := trace.trans held.traced

theorem bind (held : Held object dead values state) (n : Name) {value : RtValue Nat}
    (made : ∀ r ∈ value.references, r < values.next) : Held object dead (values.bind n value) state where
  made := held.made
  named := by
    intro m value' is
    by_cases same : m = n
    · subst same
      rw [State.bind_env_self,Option.some.injEq] at is
      subst is
      exact made
    · rw [State.bind_env_ne _ _ same] at is
      exact held.named m value' is
  superseded := held.superseded
  handles := held.handles
  contents := held.contents
  apart := held.apart
  traced := held.traced

theorem emit (held : Held object dead values state) (events : List Event) :
    Held object dead (values.emit events) (state.emit events) where
  made := held.made
  named := held.named
  superseded := held.superseded
  handles := held.handles
  contents := held.contents
  apart := held.apart
  traced := by
    simp only [State.emit,calls,List.filter_append]
    exact congrArg _ held.traced

/-- A version takes the object of the value that it supersedes. -/
theorem supersede (held : Held object dead values state) {t : Nat} {old content : Content Nat}
    {written : Content Stamp} (live : t ∉ dead) (found : values.memory t = some old)
    (made : ∀ r ∈ content.references, r < values.next)
    (shows : written.map Stamp.handle = content.map object) (version : Nat) :
    Held (Function.update object values.next (object t)) (t :: dead) (Pure.create values content)
      (InPlace.mutate state (object t) version written) where
  made := by
    intro t' content' found'
    by_cases same : t' = values.next
    · subst same
      rw [Pure.create_value,Option.some.injEq] at found'
      subst found'
      exact ⟨Nat.lt_succ_self _,fun r member => Nat.lt_succ_of_lt (made r member)⟩
    · simp only [Pure.create,Function.update_of_ne same] at found'
      obtain ⟨bound,below⟩ := held.made t' content' found'
      exact ⟨Nat.lt_succ_of_lt bound,fun r member => Nat.lt_succ_of_lt (below r member)⟩
  named := fun n value is r member => Nat.lt_succ_of_lt (held.named n value is r member)
  superseded := by
    intro t' member
    rcases List.mem_cons.mp member with rfl | member
    · exact Nat.lt_succ_of_lt (held.made _ _ found).1
    · exact Nat.lt_succ_of_lt (held.superseded t' member)
  handles := by
    intro t' bound
    rcases Nat.lt_succ_iff_lt_or_eq.mp bound with below | rfl
    · rw [update_below below]
      exact held.handles t' below
    · rw [Function.update_self]
      exact held.handles t (held.made _ _ found).1
  contents := by
    intro t' content' live' found'
    obtain ⟨other,live'⟩ := List.ne_and_not_mem_of_not_mem_cons live'
    by_cases same : t' = values.next
    · subst same
      rw [Pure.create_value,Option.some.injEq] at found'
      subst found'
      rw [Function.update_self,map_below made]
      exact ⟨_,Function.update_self _ _ _,shows⟩
    · simp only [Pure.create,Function.update_of_ne same] at found'
      obtain ⟨bound,below⟩ := held.made t' content' found'
      rw [update_below bound,map_below below]
      obtain ⟨object',is,shows'⟩ := held.contents t' content' live' found'
      refine ⟨object',?_,shows'⟩
      rw [← is]
      refine Function.update_of_ne (fun equal => other ?_) _ _
      exact held.apart t' t live' live (by simp [found']) (by simp [found]) equal
  apart := by
    intro t₁ t₂ live₁ live₂ found₁ found₂ equal
    obtain ⟨other₁,live₁⟩ := List.ne_and_not_mem_of_not_mem_cons live₁
    obtain ⟨other₂,live₂⟩ := List.ne_and_not_mem_of_not_mem_cons live₂
    by_cases same₁ : t₁ = values.next <;> by_cases same₂ : t₂ = values.next
    · exact same₁.trans same₂.symm
    · simp only [Pure.create,Function.update_of_ne same₂] at found₂
      subst same₁
      rw [Function.update_self,Function.update_of_ne same₂] at equal
      exact absurd (held.apart t t₂ live live₂ (by simp [found]) found₂ equal) other₂.symm
    · simp only [Pure.create,Function.update_of_ne same₁] at found₁
      subst same₂
      rw [Function.update_self,Function.update_of_ne same₁] at equal
      exact absurd (held.apart t₁ t live₁ live found₁ (by simp [found]) equal) other₁
    · simp only [Pure.create,Function.update_of_ne same₁,Function.update_of_ne same₂] at found₁ found₂
      rw [Function.update_of_ne same₁,Function.update_of_ne same₂] at equal
      exact held.apart t₁ t₂ live₁ live₂ found₁ found₂ equal
  traced := held.traced

/-- A new collection has a new object. -/
theorem create (held : Held object dead values state) {content : Content Nat} {written : Content Stamp}
    (made : ∀ r ∈ content.references, r < values.next)
    (shows : written.map Stamp.handle = content.map object) :
    Held (Function.update object values.next state.next) dead (Pure.create values content)
      (InPlace.create state written) where
  made := by
    intro t' content' found'
    by_cases same : t' = values.next
    · subst same
      rw [Pure.create_value,Option.some.injEq] at found'
      subst found'
      exact ⟨Nat.lt_succ_self _,fun r member => Nat.lt_succ_of_lt (made r member)⟩
    · simp only [Pure.create,Function.update_of_ne same] at found'
      obtain ⟨bound,below⟩ := held.made t' content' found'
      exact ⟨Nat.lt_succ_of_lt bound,fun r member => Nat.lt_succ_of_lt (below r member)⟩
  named := fun n value is r member => Nat.lt_succ_of_lt (held.named n value is r member)
  superseded := fun t' member => Nat.lt_succ_of_lt (held.superseded t' member)
  handles := by
    intro t' bound
    rcases Nat.lt_succ_iff_lt_or_eq.mp bound with below | rfl
    · rw [update_below below]
      exact Nat.lt_succ_of_lt (held.handles t' below)
    · rw [Function.update_self]
      exact Nat.lt_succ_self _
  contents := by
    intro t' content' live' found'
    by_cases same : t' = values.next
    · subst same
      rw [Pure.create_value,Option.some.injEq] at found'
      subst found'
      rw [Function.update_self,map_below made]
      exact ⟨_,Function.update_self _ _ _,shows⟩
    · simp only [Pure.create,Function.update_of_ne same] at found'
      obtain ⟨bound,below⟩ := held.made t' content' found'
      rw [update_below bound,map_below below]
      obtain ⟨object',is,shows'⟩ := held.contents t' content' live' found'
      refine ⟨object',?_,shows'⟩
      rw [← is]
      exact Function.update_of_ne (Nat.ne_of_lt (held.handles t' bound)) _ _
  apart := by
    intro t₁ t₂ live₁ live₂ found₁ found₂ equal
    by_cases same₁ : t₁ = values.next <;> by_cases same₂ : t₂ = values.next
    · exact same₁.trans same₂.symm
    · simp only [Pure.create,Function.update_of_ne same₂] at found₂
      subst same₁
      rw [Function.update_self,Function.update_of_ne same₂] at equal
      obtain ⟨content',is⟩ := Option.ne_none_iff_exists'.mp found₂
      exact absurd equal.symm (Nat.ne_of_lt (held.handles t₂ (held.made _ _ is).1))
    · simp only [Pure.create,Function.update_of_ne same₁] at found₁
      subst same₂
      rw [Function.update_self,Function.update_of_ne same₁] at equal
      obtain ⟨content',is⟩ := Option.ne_none_iff_exists'.mp found₁
      exact absurd equal (Nat.ne_of_lt (held.handles t₁ (held.made _ _ is).1))
    · simp only [Pure.create,Function.update_of_ne same₁,Function.update_of_ne same₂] at found₁ found₂
      rw [Function.update_of_ne same₁,Function.update_of_ne same₂] at equal
      exact held.apart t₁ t₂ live₁ live₂ found₁ found₂ equal
  traced := held.traced

/-- What is deleted was the object of one value only. -/
theorem free (held : Held object dead values state) {t : Nat} {content : Content Nat} (live : t ∉ dead)
    (found : values.memory t = some content) {stamp : Stamp} (handle : stamp.handle = object t) :
    Held object (t :: dead) values (InPlace.free state [stamp]) where
  made := held.made
  named := held.named
  superseded := by
    intro t' member
    rcases List.mem_cons.mp member with rfl | member
    · exact (held.made _ _ found).1
    · exact held.superseded t' member
  handles := held.handles
  contents := by
    intro t' content' live' found'
    obtain ⟨other,live'⟩ := List.ne_and_not_mem_of_not_mem_cons live'
    obtain ⟨object',is,shows⟩ := held.contents t' content' live' found'
    refine ⟨object',?_,shows⟩
    have apart : object t' ≠ stamp.handle := by
      rw [handle]
      exact fun equal => other (held.apart t' t live' live (by simp [found']) (by simp [found]) equal)
    simp [InPlace.free,apart,is]
  apart := fun t₁ t₂ live₁ live₂ => held.apart t₁ t₂ (List.ne_and_not_mem_of_not_mem_cons live₁).2
    (List.ne_and_not_mem_of_not_mem_cons live₂).2
  traced := held.traced

end Held
end

/-- The same but for versions. -/
def SameHandles (env env' : Env Stamp) (n : Name) : Prop :=
  (env' n).map (RtValue.map Stamp.handle) = (env n).map (RtValue.map Stamp.handle)

def Points (object : Nat → Nat) (env : Env Stamp) (v : Value) (t : Nat) : Prop :=
  ∃ stamp, reference env v = some stamp ∧ stamp.handle = object t

section
variable {object object' : Nat → Nat} {env env' : Env Stamp} {n : Name} {v : Value} {t : Nat}

theorem SameHandles.word (same : SameHandles env env' n) {w : Word} (is : env n = some (.word w)) :
    env' n = some (.word w) := by
  unfold SameHandles at same
  rw [is] at same
  rcases at_ : env' n with _ | _ | _ | _ | _ <;> simp_all [RtValue.map]

theorem Points.same (points : Points object env v t) (kept : ∀ m, v = .name m → SameHandles env env' m)
    (agree : object' t = object t) : Points object' env' v t := by
  obtain ⟨stamp,found,handle⟩ := points
  obtain ⟨m,rfl,at_⟩ := reference_env found
  have same := kept m rfl
  unfold SameHandles at same
  rw [at_] at same
  unfold Points
  simp only [reference]
  rcases at' : env' m with _ | _ | stamp' | _ | _ <;> rw [at'] at same <;>
    simp only [Option.map_some,Option.map_none,RtValue.map,Option.some.injEq,RtValue.reference.injEq,
      reduceCtorEq] at same
  exact ⟨stamp',rfl,by rw [same,agree,handle]⟩

theorem Points.not_constant (points : Points object env v t) : ∃ m, v = .name m := by
  obtain ⟨stamp,found,_⟩ := points
  obtain ⟨m,rfl,_⟩ := reference_env found
  exact ⟨m,rfl⟩

end

/-- What the names stand for before an instruction: an end marker stands for a size at most, and a pair
for the two operands of its swap. -/
structure Named (program : SsaFunction) (tree : Construction.Tree program.function) (f : Value → Value)
    (object : Nat → Nat) (b k : Nat) (env : Env Nat) (env' : Env Stamp) : Prop where
  words : ∀ n w, env n = some (.word w) → env' n = some (.word w)
  references : ∀ n t, (∀ v, ¬ Becomes program n v) ∨ program.function.Available n b k →
    env n = some (.reference t) → Points object env' (f (.name n)) t
  markers : ∀ n ∈ endMarkers program.function tree, ∀ value, env n = some value → value = .endOfSequence
  sizes : ∀ n ∈ endMarkers program.function tree, ∀ stamp, env' n ≠ some (.reference stamp)
  marked : ∀ n, env n = some .endOfSequence → n ∈ endMarkers program.function tree
  pairs : ∀ n s t, env n = some (.pair s t) → ∃ b' k' x first last y toFirst,
    program.function.graph.Reachable b' ∧ At program n b' k' (.seqSwap x first last y toFirst) ∧
      (program.function.Available n b k → Points object env' (f x) s ∧ Points object env' (f y) t)

section
variable {program : SsaFunction} {tree : Construction.Tree program.function} {f : Value → Value}
  {object object' : Nat → Nat} {b k : Nat} {env after : Env Nat} {env' after' : Env Stamp} {n : Name}
  {inst : Inst}

theorem mem_endMarkers : n ∈ endMarkers program.function tree ↔
    ∃ b k, program.function.graph.Reachable b ∧ At program n b k .endInst := by
  simp only [endMarkers,List.mem_filterMap,mem_visited]
  constructor
  · rintro ⟨⟨n',inst⟩,⟨b,k,reachable,at_⟩,is⟩
    cases inst <;> simp only [reduceCtorEq,Option.some.injEq] at is
    subst is
    exact ⟨b,k,reachable,at_⟩
  · rintro ⟨b,k,reachable,at_⟩
    exact ⟨(n,.endInst),⟨b,k,reachable,at_⟩,rfl⟩

/-- A size instruction changes no name but the end marker. -/
theorem Named.sized (named : Named program tree f object b k env env')
    (marker : n ∈ endMarkers program.function tree) {w : Word}
    (kept : ∀ m, m ≠ n → after' m = env' m) (bound : after' n = some (.word w)) :
    Named program tree f object b k env after' := by
  have points : ∀ {v t}, Points object env' v t → Points object after' v t := by
    intro v t points
    refine points.same (fun m is => ?_) rfl
    unfold SameHandles
    rw [kept m]
    rintro rfl
    subst is
    obtain ⟨stamp,found,_⟩ := points
    obtain ⟨_,same,at_⟩ := reference_env found
    obtain rfl := Value.name.inj same
    exact named.sizes m marker stamp at_
  constructor
  · intro m w' is
    by_cases same : m = n
    · subst same
      exact absurd (named.markers m marker _ is) (by simp)
    · rw [kept m same]
      exact named.words m w' is
  · exact fun m t old is => points (named.references m t old is)
  · exact named.markers
  · intro m isMarker stamp
    by_cases same : m = n
    · subst same
      simp [bound]
    · rw [kept m same]
      exact named.sizes m isMarker stamp
  · exact named.marked
  · intro m s t is
    obtain ⟨b',k',x,first,last,y,toFirst,reachable,at_,operands⟩ := named.pairs m s t is
    refine ⟨b',k',x,first,last,y,toFirst,reachable,at_,fun available => ?_⟩
    exact ⟨points (operands available).1,points (operands available).2⟩

/-- From one instruction to the next: only its own name changes. -/
theorem Named.next (named : Named program tree f object b k env env') (resolves : Resolves program tree f)
    (at_ : At program n b k inst) (reachable : program.function.graph.Reachable b)
    (agree : ∀ m value, env m = some value → ∀ t ∈ value.references, object' t = object t)
    (others : ∀ m, m ≠ n → after m = env m) (kept : ∀ m, m ≠ n → SameHandles env' after' m)
    (word : ∀ w, after n = some (.word w) → after' n = some (.word w))
    (reference : ∀ t, after n = some (.reference t) → Points object' after' (f (.name n)) t)
    (pair : ∀ s t, after n = some (.pair s t) → ∃ x first last y toFirst,
      inst = .seqSwap x first last y toFirst ∧ Points object' after' (f x) s ∧ Points object' after' (f y) t)
    (marker : inst = .endInst → after n = some .endOfSequence ∧ after' n = env' n)
    (marked : after n = some .endOfSequence → inst = .endInst) :
    Named program tree f object' b (k + 1) after after' := by
  have apart : ∀ m, m ≠ n → (∀ v, ¬ Becomes program m v) ∨ program.function.Available m b k →
      ∀ m', f (.name m) = .name m' → m' ≠ n := by
    rintro m other old m' is rfl
    exact resolves.apart at_ reachable other old is
  have before : ∀ m, m ≠ n → program.function.Available m b (k + 1) →
      program.function.Available m b k := by
    intro m other available
    refine (available_next available).resolve_right ?_
    rintro ⟨inst',block',found',entry'⟩
    obtain ⟨block,found,entry⟩ := at_
    obtain rfl := Option.some.inj (found.symm.trans found')
    exact other (Prod.mk.inj (Option.some.inj (entry'.symm.trans entry))).1
  constructor
  · intro m w is
    by_cases same : m = n
    · subst same
      exact word w is
    · rw [others m same] at is
      exact (kept m same).word (named.words m w is)
  · intro m t old is
    by_cases same : m = n
    · subst same
      exact reference t is
    · rw [others m same] at is
      have old' := old.imp_right (before m same)
      refine (named.references m t old' is).same (fun m' is' => kept m' ?_)
        (agree m _ is t (List.mem_singleton.mpr rfl))
      exact apart m same old' m' is'
  · intro m isMarker value is
    by_cases same : m = n
    · subst same
      obtain ⟨_,_,_,at'⟩ := mem_endMarkers.mp isMarker
      obtain ⟨_,_,rfl⟩ := at_.unique at'
      exact Option.some.inj (is.symm.trans (marker rfl).1)
    · rw [others m same] at is
      exact named.markers m isMarker value is
  · intro m isMarker stamp
    by_cases same : m = n
    · subst same
      obtain ⟨_,_,_,at'⟩ := mem_endMarkers.mp isMarker
      obtain ⟨_,_,rfl⟩ := at_.unique at'
      rw [(marker rfl).2]
      exact named.sizes m isMarker stamp
    · intro is
      have kept := kept m same
      unfold SameHandles at kept
      rw [is] at kept
      rcases old : env' m with _ | _ | stamp' | _ | _ <;> rw [old] at kept <;>
        simp only [Option.map_some,Option.map_none,RtValue.map,Option.some.injEq,reduceCtorEq] at kept
      exact named.sizes m isMarker stamp' old
  · intro m is
    by_cases same : m = n
    · subst same
      obtain rfl := marked is
      exact mem_endMarkers.mpr ⟨b,k,reachable,at_⟩
    · rw [others m same] at is
      exact named.marked m is
  · intro m s t is
    by_cases same : m = n
    · subst same
      obtain ⟨x,first,last,y,toFirst,rfl,operands⟩ := pair s t is
      exact ⟨b,k,x,first,last,y,toFirst,reachable,at_,fun _ => operands⟩
    · rw [others m same] at is
      obtain ⟨b',k',x,first,last,y,toFirst,reachable',at',operands⟩ := named.pairs m s t is
      refine ⟨b',k',x,first,last,y,toFirst,reachable',at',fun available => ?_⟩
      have available := before m same available
      have operand : ∀ {v r}, v ∈ Inst.operands (.seqSwap x first last y toFirst) →
          r ∈ [s,t] → Points object env' (f v) r → Points object' after' (f v) r := by
        intro v r used member points
        refine points.same (fun m' is' => kept m' ?_) (agree m _ is r member)
        obtain ⟨v,rfl⟩ := resolves.name is'
        have above := available_trans at' available (operand_available at' reachable' used) reachable
        refine apart v ?_ (.inr above) m' is'
        rintro rfl
        exact at_.not_available above
      exact ⟨operand (by simp [Inst.operands,Inst.mutated]) (by simp) (operands available).1,
        operand (by simp [Inst.operands,Inst.mutated]) (by simp) (operands available).2⟩

end

end Memoir.Destruction
