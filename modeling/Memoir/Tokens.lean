import Memoir.Executions

/-! The objects in place at their current versions, and the values of the other
machine: each version has a token, chosen when the version is made. -/
namespace Memoir

namespace InPlace

def Seen (state : Store) (stamp : Stamp) : Prop :=
  stamp.handle < state.next ∧
    ∀ object, state.memory stamp.handle = some object → stamp.version ≤ object.version

variable {state : Store} {stamp : Stamp}

theorem Seen.mutate (seen : Seen state stamp) {handle : Nat} {object : Object}
    (found : state.memory handle = some object) (content : Content Stamp) :
    Seen (mutate state handle (object.version + 1) content) stamp := by
  refine ⟨seen.1,fun object' found' => ?_⟩
  by_cases same : stamp.handle = handle
  · subst same
    simp only [InPlace.mutate,Function.update_self,Option.some.injEq] at found'
    subst found'
    exact Nat.le_succ_of_le (seen.2 object found)
  · simp only [InPlace.mutate,Function.update_of_ne same] at found'
    exact seen.2 object' found'

theorem Seen.renewed (seen : Seen state stamp) (version : Nat) (content : Content Stamp) :
    Seen (InPlace.mutate state stamp.handle version content) ⟨stamp.handle,version⟩ := by
  refine ⟨seen.1,fun object found => ?_⟩
  simp only [InPlace.mutate,Function.update_self,Option.some.injEq] at found
  exact Nat.le_of_eq (congrArg Object.version found)

theorem Seen.create (seen : Seen state stamp) (content : Content Stamp) :
    Seen (create state content) stamp := by
  refine ⟨Nat.lt_succ_of_lt seen.1,fun object' found' => ?_⟩
  simp only [InPlace.create,Function.update_of_ne (Nat.ne_of_lt seen.1)] at found'
  exact seen.2 object' found'

theorem Seen.fresh (content : Content Stamp) :
    Seen (InPlace.create state content) ⟨state.next,0⟩ :=
  ⟨Nat.lt_succ_self _,fun _ _ => Nat.zero_le _⟩

theorem Seen.free (seen : Seen state stamp) (stamps : List Stamp) :
    Seen (free state stamps) stamp := by
  refine ⟨seen.1,fun object' found' => ?_⟩
  simp only [InPlace.free] at found'
  split at found'
  · exact absurd found' (by simp)
  · exact seen.2 object' found'

end InPlace

open InPlace

structure Stored (token : Stamp → Nat) (state : InPlace.Store) (values : Pure.Store) : Prop where
  handles : ∀ handle object, state.memory handle = some object → handle < state.next
  tokens : ∀ handle object, state.memory handle = some object →
    token ⟨handle,object.version⟩ < values.next ∧
      values.memory (token ⟨handle,object.version⟩) = some (object.content.map token)
  contents : ∀ handle object, state.memory handle = some object →
    ∀ stamp ∈ object.content.references, Seen state stamp
  env : ∀ n value, state.env n = some value → ∀ stamp ∈ value.references, Seen state stamp
  defined : ∀ n value, state.defined n = some value → ∀ stamp ∈ value.references, Seen state stamp
  trace : values.trace = state.trace

namespace Stored

variable {token : Stamp → Nat} {state : InPlace.Store} {values : Pure.Store}

/-- What only the values have does not matter. -/
theorem extend {after : Pure.Store} (stored : Stored token state values)
    (next : values.next ≤ after.next)
    (kept : ∀ t < values.next, after.memory t = values.memory t)
    (trace : after.trace = values.trace) : Stored token state after where
  handles := stored.handles
  tokens := by
    intro handle object found
    obtain ⟨bound,value⟩ := stored.tokens handle object found
    exact ⟨Nat.lt_of_lt_of_le bound next,(kept _ bound).trans value⟩
  contents := stored.contents
  env := stored.env
  defined := stored.defined
  trace := trace.trans stored.trace

/-- A new value, which no version has yet. -/
theorem made (stored : Stored token state values) (held : Content Nat) :
    Stored token state (Pure.create values held) :=
  stored.extend (Nat.le_succ _) (fun _ bound => Function.update_of_ne (Nat.ne_of_lt bound) _ _) rfl

theorem named (stored : Stored token state values) (n : Name) (value : RtValue Nat) :
    Stored token state (values.bind n value) :=
  stored.extend (Nat.le_refl _) (fun _ _ => rfl) rfl

theorem seen_version (stored : Stored token state values) {handle : Nat} {object : Object}
    (found : state.memory handle = some object) : Seen state ⟨handle,object.version⟩ :=
  ⟨stored.handles _ _ found,fun _ at_ =>
    Nat.le_of_eq (congrArg Object.version (Option.some.inj (found.symm.trans at_)))⟩

theorem value (stored : Stored token state values) {stamp : Stamp} {held : Content Stamp}
    (current : Current state stamp) (found : content state stamp = some held) :
    values.memory (token stamp) = some (held.map token) := by
  obtain ⟨object,at_,same⟩ := current
  obtain rfl : object.content = held := by simpa [content,at_] using found
  have value := (stored.tokens _ _ at_).2
  rwa [same] at value

theorem seen (stored : Stored token state values) {stamp : Stamp} {held : Content Stamp}
    (found : content state stamp = some held) : ∀ r ∈ held.references, Seen state r := by
  simp only [content,Option.map_eq_some_iff] at found
  obtain ⟨object,at_,rfl⟩ := found
  exact stored.contents _ _ at_

theorem agree_content {token' : Stamp → Nat} {held : Content Stamp}
    (agree : ∀ stamp, Seen state stamp → token' stamp = token stamp)
    (made : ∀ stamp ∈ held.references, Seen state stamp) : held.map token' = held.map token :=
  held.map_congr _ _ fun stamp member => agree stamp (made stamp member)

/-- A new version of an object has a token of its own. -/
theorem mutate (stored : Stored token state values) {handle : Nat} {object : Object}
    (found : state.memory handle = some object) {held : Content Stamp} {t : Nat}
    (made : ∀ stamp ∈ held.references, Seen state stamp) (bound : t < values.next)
    (value : values.memory t = some (held.map token)) :
    ∃ token', token' ⟨handle,object.version + 1⟩ = t ∧
      (∀ stamp, Seen state stamp → token' stamp = token stamp) ∧
      Stored token' (InPlace.mutate state handle (object.version + 1) held) values := by
  have agree : ∀ stamp, Seen state stamp →
      Function.update token ⟨handle,object.version + 1⟩ t stamp = token stamp := by
    intro stamp seen
    refine Function.update_of_ne ?_ _ _
    rintro rfl
    exact Nat.not_succ_le_self _ (seen.2 object found)
  refine ⟨_,Function.update_self _ _ _,agree,?_,?_,?_,?_,?_,stored.trace⟩
  · intro handle' object' found'
    by_cases same : handle' = handle
    · subst same
      exact stored.handles _ _ found
    · simp only [InPlace.mutate,Function.update_of_ne same] at found'
      exact stored.handles _ _ found'
  · intro handle' object' found'
    by_cases same : handle' = handle
    · subst same
      simp only [InPlace.mutate,Function.update_self,Option.some.injEq] at found'
      subst found'
      rw [Function.update_self,agree_content agree made]
      exact ⟨bound,value⟩
    · simp only [InPlace.mutate,Function.update_of_ne same] at found'
      rw [agree _ (stored.seen_version found'),agree_content agree (stored.contents _ _ found')]
      exact stored.tokens _ _ found'
  · intro handle' object' found' stamp member
    refine Seen.mutate ?_ found held
    by_cases same : handle' = handle
    · subst same
      simp only [InPlace.mutate,Function.update_self,Option.some.injEq] at found'
      subst found'
      exact made stamp member
    · simp only [InPlace.mutate,Function.update_of_ne same] at found'
      exact stored.contents _ _ found' stamp member
  · exact fun n value at_ stamp member => (stored.env n value at_ stamp member).mutate found held
  · exact fun n value at_ stamp member => (stored.defined n value at_ stamp member).mutate found held

theorem create (stored : Stored token state values) {held : Content Stamp} {t : Nat}
    (made : ∀ stamp ∈ held.references, Seen state stamp) (bound : t < values.next)
    (value : values.memory t = some (held.map token)) :
    ∃ token', token' ⟨state.next,0⟩ = t ∧
      (∀ stamp, Seen state stamp → token' stamp = token stamp) ∧
      Stored token' (InPlace.create state held) values := by
  have agree : ∀ stamp, Seen state stamp →
      Function.update token ⟨state.next,0⟩ t stamp = token stamp := by
    intro stamp seen
    refine Function.update_of_ne ?_ _ _
    rintro rfl
    exact Nat.lt_irrefl _ seen.1
  refine ⟨_,Function.update_self _ _ _,agree,?_,?_,?_,?_,?_,stored.trace⟩
  · intro handle object found
    by_cases same : handle = state.next
    · subst same
      exact Nat.lt_succ_self _
    · simp only [InPlace.create,Function.update_of_ne same] at found
      exact Nat.lt_succ_of_lt (stored.handles _ _ found)
  · intro handle object found
    by_cases same : handle = state.next
    · subst same
      simp only [InPlace.create,Function.update_self,Option.some.injEq] at found
      subst found
      rw [Function.update_self,agree_content agree made]
      exact ⟨bound,value⟩
    · simp only [InPlace.create,Function.update_of_ne same] at found
      rw [agree _ (stored.seen_version found),agree_content agree (stored.contents _ _ found)]
      exact stored.tokens _ _ found
  · intro handle object found stamp member
    refine Seen.create ?_ held
    by_cases same : handle = state.next
    · subst same
      simp only [InPlace.create,Function.update_self,Option.some.injEq] at found
      subst found
      exact made stamp member
    · simp only [InPlace.create,Function.update_of_ne same] at found
      exact stored.contents _ _ found stamp member
  · exact fun n value at_ stamp member => (stored.env n value at_ stamp member).create held
  · exact fun n value at_ stamp member => (stored.defined n value at_ stamp member).create held

theorem free (stored : Stored token state values) (stamps : List Stamp) :
    Stored token (InPlace.free state stamps) values where
  handles := fun handle object found => by
    simp only [InPlace.free] at found
    split at found
    · exact absurd found (by simp)
    · exact stored.handles _ _ found
  tokens := fun handle object found => by
    simp only [InPlace.free] at found
    split at found
    · exact absurd found (by simp)
    · exact stored.tokens _ _ found
  contents := fun handle object found stamp member => by
    simp only [InPlace.free] at found
    split at found
    · exact absurd found (by simp)
    · exact (stored.contents _ _ found stamp member).free stamps
  env := fun n value at_ stamp member => (stored.env n value at_ stamp member).free stamps
  defined := fun n value at_ stamp member => (stored.defined n value at_ stamp member).free stamps
  trace := stored.trace

theorem consume (stored : Stored token state values) (inst : Inst) (read : List Stamp) :
    Stored token (InPlace.consume state inst read) values := by
  cases inst
  case mutSeqAppend => exact stored.free read
  all_goals exact stored

theorem emit (stored : Stored token state values) (events : List Event) :
    Stored token (state.emit events) (values.emit events) where
  handles := stored.handles
  tokens := stored.tokens
  contents := stored.contents
  env := stored.env
  defined := stored.defined
  trace := congrArg (events ++ ·) stored.trace

theorem bind (stored : Stored token state values) (n : Name) {value : RtValue Stamp}
    (made : ∀ stamp ∈ value.references, Seen state stamp) :
    Stored token (state.bind n value) values where
  handles := stored.handles
  tokens := stored.tokens
  contents := stored.contents
  env := by
    intro m v found
    by_cases same : m = n
    · subst same
      simp only [State.bind,Function.update_self,Option.some.injEq] at found
      subst found
      exact made
    · simp only [State.bind,Function.update_of_ne same] at found
      exact stored.env m v found
  defined := by
    intro m v found
    by_cases same : m = n
    · subst same
      simp only [State.bind,Function.update_self,Option.some.injEq] at found
      subst found
      exact made
    · simp only [State.bind,Function.update_of_ne same] at found
      exact stored.defined m v found
  trace := stored.trace

theorem restamp (stored : Stored token state values) (n : Name) {stamp : Stamp}
    (made : Seen state stamp) : Stored token (state.restamp n stamp) values where
  handles := stored.handles
  tokens := stored.tokens
  contents := stored.contents
  env := by
    intro m v found
    by_cases same : m = n
    · subst same
      simp only [State.restamp,Function.update_self,Option.some.injEq] at found
      subst found
      intro r member
      obtain rfl := List.mem_singleton.mp member
      exact made
    · simp only [State.restamp,Function.update_of_ne same] at found
      exact stored.env m v found
  defined := stored.defined
  trace := stored.trace

end Stored

end Memoir
