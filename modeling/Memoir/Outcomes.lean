/-! Programs on a state that may abort or use up the levels of their recursion, and the rules for what a
run meets: a condition on its result, and what is owed when there is none. -/
namespace Memoir.Outcomes

inductive Outcome (State α : Type)
  | returned (value : α) (state : State)
  | aborted
  | outOfFuel

def Routine (State α : Type) := State → Outcome State α

variable {State α β : Type}

instance : Monad (Routine State) where
  pure value state := .returned value state
  bind run next state :=
    match run state with
    | .returned value state => next value state
    | .aborted => .aborted
    | .outOfFuel => .outOfFuel

namespace Routine

def abort : Routine State α := fun _ => .aborted

def exhaust : Routine State α := fun _ => .outOfFuel

def read : Routine State State := fun state => .returned state state

def update (change : State → State) : Routine State Unit := fun state => .returned () (change state)

def require : Option α → Routine State α
  | some value => pure value
  | none => abort

def each (run : β → Routine State α) : List β → Routine State (List α)
  | [] => pure []
  | first :: rest => do
    let value ← run first
    let values ← each run rest
    return value :: values

variable {aborts exhausts : Prop} {run : Routine State α} {next : α → Routine State β} {state : State}

/-- The result meets `post`; without a result, `aborts` or `exhausts` holds. -/
def Meets (aborts exhausts : Prop) (run : Routine State α) (state : State)
    (post : α → State → Prop) : Prop :=
  match run state with
  | .returned value state => post value state
  | .aborted => aborts
  | .outOfFuel => exhausts

@[simp] theorem meets_pure {value : α} {post : α → State → Prop} :
    Meets aborts exhausts (pure value) state post ↔ post value state := Iff.rfl

@[simp] theorem meets_read {post : State → State → Prop} :
    Meets aborts exhausts read state post ↔ post state state := Iff.rfl

@[simp] theorem meets_update {change : State → State} {post : Unit → State → Prop} :
    Meets aborts exhausts (update change) state post ↔ post () (change state) := Iff.rfl

@[simp] theorem meets_bind {post : β → State → Prop} :
    Meets aborts exhausts (run >>= next) state post ↔
      Meets aborts exhausts run state fun value state =>
        Meets aborts exhausts (next value) state post := by
  simp only [Meets,bind]
  cases run state with
  | returned value state => exact Iff.rfl
  | aborted => exact Iff.rfl
  | outOfFuel => exact Iff.rfl

theorem Meets.mono {post post' : α → State → Prop} (meets : Meets aborts exhausts run state post)
    (implies : ∀ value state,post value state → post' value state) :
    Meets aborts exhausts run state post' := by
  unfold Meets at *
  cases result : run state with
  | returned value after =>
    rw [result] at meets
    exact implies value after meets
  | aborted =>
    rw [result] at meets
    exact meets
  | outOfFuel =>
    rw [result] at meets
    exact meets

theorem Meets.bind {post : α → State → Prop} {post' : β → State → Prop}
    (meets : Meets aborts exhausts run state post)
    (after : ∀ value state,post value state → Meets aborts exhausts (next value) state post') :
    Meets aborts exhausts (run >>= next) state post' :=
  meets_bind.mpr (meets.mono after)

theorem meets_require {value : Option α} {post : α → State → Prop} (none : value = none → aborts)
    (some : ∀ found,value = some found → post found state) :
    Meets aborts exhausts (require value) state post := by
  cases value with
  | none => exact none rfl
  | some found => exact some found rfl

/-- What is kept by every run is kept by runs one after another. -/
theorem meets_each (post : List β → List α → State → Prop) {run : β → Routine State α} {list : List β}
    (first : post [] [] state)
    (step : ∀ done values state value rest,done ++ value :: rest = list → post done values state →
      Meets aborts exhausts (run value) state fun result => post (done ++ [value]) (values ++ [result])) :
    Meets aborts exhausts (each run list) state (post list) := by
  suffices rest : ∀ (rest done : List β) (values : List α) (state : State),done ++ rest = list →
      post done values state →
      Meets aborts exhausts (each run rest) state fun results => post list (values ++ results) from
    rest list [] [] state rfl first
  intro rest
  induction rest with
  | nil =>
    intro done values state whole holds
    rw [List.append_nil] at whole
    subst whole
    rw [each,meets_pure,List.append_nil]
    exact holds
  | cons value rest ih =>
    intro done values state whole holds
    rw [each]
    apply (step done values state value rest whole holds).bind
    intro result state holds
    apply (ih (done ++ [value]) (values ++ [result]) state (by simp [whole]) holds).bind
    intro results state holds
    rw [List.append_assoc] at holds
    exact holds

theorem Meets.returns {post : α → State → Prop} (meets : Meets False False run state post) :
    ∃ value after,run state = .returned value after ∧ post value after := by
  unfold Meets at meets
  cases result : run state with
  | returned value after =>
    rw [result] at meets
    exact ⟨value,after,rfl,meets⟩
  | aborted =>
    rw [result] at meets
    exact meets.elim
  | outOfFuel =>
    rw [result] at meets
    exact meets.elim

/-- A run that does not run out of levels, and does not abort, does neither. -/
theorem Meets.and {post post' : α → State → Prop} (ends : Meets True False run state post)
    (meets : Meets False True run state post') :
    Meets False False run state fun value state => post value state ∧ post' value state := by
  unfold Meets at *
  cases result : run state with
  | returned value after =>
    rw [result] at ends meets
    exact ⟨ends,meets⟩
  | aborted =>
    rw [result] at meets
    exact meets
  | outOfFuel =>
    rw [result] at ends
    exact ends

/-- A run that uses up its levels. -/
abbrev Exhausts (run : Routine State α) (state : State) : Prop :=
  Meets False True run state fun _ _ => False

theorem Exhausts.bind (exhausts : Exhausts run state) : Exhausts (run >>= next) state :=
  Meets.bind exhausts fun _ _ none => none.elim

theorem Exhausts.outOfFuel (exhausts : Exhausts run state) : run state = .outOfFuel := by
  unfold Exhausts Meets at exhausts
  cases result : run state with
  | returned value after =>
    rw [result] at exhausts
    exact exhausts.elim
  | aborted =>
    rw [result] at exhausts
    exact exhausts.elim
  | outOfFuel => rfl

def Preserves (aborts exhausts : Prop) (holds : State → Prop) (run : Routine State α) : Prop :=
  ∀ state,holds state → Meets aborts exhausts run state fun _ after => holds after

section Preserves
variable {holds : State → Prop}

theorem Preserves.pure (value : α) :
    Preserves aborts exhausts holds (Pure.pure value : Routine State α) := fun _ kept => kept

theorem Preserves.abort (allowed : aborts) :
    Preserves aborts exhausts holds (Routine.abort : Routine State α) := fun _ _ => allowed

theorem Preserves.read : Preserves aborts exhausts holds (Routine.read : Routine State State) :=
  fun _ kept => kept

theorem Preserves.update {change : State → State} (keeps : ∀ state,holds state → holds (change state)) :
    Preserves aborts exhausts holds (Routine.update change) := fun state kept => keeps state kept

theorem Preserves.bind (first : Preserves aborts exhausts holds run)
    (second : ∀ value,Preserves aborts exhausts holds (next value)) :
    Preserves aborts exhausts holds (run >>= next) := by
  intro state kept
  apply (first state kept).bind
  intro value after kept
  exact second value after kept

theorem Preserves.require (allowed : aborts) (value : Option α) :
    Preserves aborts exhausts holds (Routine.require value) := by
  cases value with
  | none => exact .abort allowed
  | some found => exact .pure found

theorem Preserves.each {run : β → Routine State α} (list : List β)
    (preserves : ∀ item ∈ list,Preserves aborts exhausts holds (run item)) :
    Preserves aborts exhausts holds (Routine.each run list) := by
  induction list with
  | nil => exact .pure []
  | cons item list ih =>
    apply (preserves item List.mem_cons_self).bind
    intro result
    apply (ih fun other member => preserves other (List.mem_cons_of_mem item member)).bind
    exact fun results => .pure (result :: results)

end Preserves

end Routine
end Memoir.Outcomes
