import Mathlib.Algebra.BigOperators.Group.List.Basic
import Mathlib.Algebra.GroupWithZero.Nat
import Mathlib.Data.List.Dedup
import Mathlib.Logic.Relation
import Mathlib.Tactic.Tauto

/-! A loop over a worklist that visits an item once and puts what follows from it on the list. It
ends when there are finitely many items from which something follows, and visits what is reached. -/
namespace Worklist

variable {α : Type} (next : α → List α)

def Follows (item other : α) : Prop := other ∈ next item

def Reached (worklist : List α) (item : α) : Prop :=
  ∃ first ∈ worklist,Relation.ReflTransGen (Follows next) first item

section
variable {next} {worklist result : List α} {item : α}

theorem Reached.visit {x : α} (reached : Reached next ((next item).reverse ++ worklist) x) :
    Reached next (item :: worklist) x := by
  obtain ⟨first,member,path⟩ := reached
  rcases List.mem_append.mp member with follows | there
  · exact ⟨item,List.mem_cons_self,.head (List.mem_reverse.mp follows) path⟩
  · exact ⟨first,List.mem_cons_of_mem item there,path⟩

theorem mem_of_reached (start : worklist ⊆ result) (closed : ∀ item ∈ result,next item ⊆ result)
    (reached : Reached next worklist item) : item ∈ result := by
  obtain ⟨first,member,path⟩ := reached
  induction path with
  | refl => exact start member
  | tail _ follows ih => exact closed _ ih follows

end

variable [DecidableEq α]

/-- The last item of the list is its head. The loop has no result where it does not end. -/
def run : Nat → List α → List α → Option (List α)
  | _,[],visited => some visited
  | 0,_ :: _,_ => none
  | fuel + 1,item :: worklist,visited =>
    if item ∈ visited then run fuel worklist visited
    else run fuel ((next item).reverse ++ worklist) (item :: visited)

def pending (items visited : List α) : Nat :=
  ((items.filter (· ∉ visited)).map fun item => (next item).length).sum

def visit (items worklist : List α) : Option (List α) :=
  run next (worklist.length + pending next items.dedup []) worklist []

variable {next} {items worklist visited result : List α} {item : α}

theorem pending_visit (distinct : items.Nodup) (known : next item ≠ [] → item ∈ items)
    (fresh : item ∉ visited) :
    pending next items visited = (next item).length + pending next items (item :: visited) := by
  unfold pending
  by_cases inside : item ∈ items
  · have split : (items.filter (· ∉ visited)).Perm
        (item :: items.filter (· ∉ item :: visited)) := by
      apply (List.perm_ext_iff_of_nodup (distinct.filter _) ?_).mpr
      · intro x
        by_cases same : x = item
        · simp [same,inside,fresh]
        · simp [same]
      · apply List.nodup_cons.mpr
        exact ⟨by simp,distinct.filter _⟩
    rw [(split.map _).sum_eq,List.map_cons,List.sum_cons]
  · have none : next item = [] := by
      by_contra some
      exact inside (known some)
    have same : items.filter (· ∉ item :: visited) = items.filter (· ∉ visited) := by
      apply List.filter_congr
      intro x member
      have apart : x ≠ item := fun same => inside (same ▸ member)
      simp [apart]
    rw [same,none,List.length_nil,Nat.zero_add]

theorem run_ends (distinct : items.Nodup) (known : ∀ item,next item ≠ [] → item ∈ items) {fuel : Nat}
    (enough : worklist.length + pending next items visited ≤ fuel) :
    ∃ result,run next fuel worklist visited = some result := by
  induction fuel generalizing worklist visited with
  | zero =>
    obtain rfl := List.eq_nil_of_length_eq_zero (show worklist.length = 0 by omega)
    exact ⟨visited,by rw [run]⟩
  | succ fuel ih =>
    cases worklist with
    | nil => exact ⟨visited,by rw [run]⟩
    | cons item worklist =>
      rw [List.length_cons] at enough
      rw [run]
      split_ifs with old
      · exact ih (by omega)
      · have split := pending_visit distinct (known item) old
        apply ih
        rw [List.length_append,List.length_reverse]
        omega

theorem reached_of_run {fuel : Nat} (ran : run next fuel worklist visited = some result) {x : α}
    (member : x ∈ result) : x ∈ visited ∨ Reached next worklist x := by
  induction fuel generalizing worklist visited with
  | zero =>
    cases worklist with
    | nil =>
      obtain rfl := Option.some.inj ran
      exact .inl member
    | cons item worklist => exact absurd ran (by simp [run])
  | succ fuel ih =>
    cases worklist with
    | nil =>
      rw [run] at ran
      obtain rfl := Option.some.inj ran
      exact .inl member
    | cons item worklist =>
      rw [run] at ran
      split_ifs at ran with old
      · apply (ih ran).imp_right
        rintro ⟨first,there,path⟩
        exact ⟨first,List.mem_cons_of_mem item there,path⟩
      · rcases ih ran with there | reached
        · rcases List.mem_cons.mp there with rfl | there
          · exact .inr ⟨x,List.mem_cons_self,.refl⟩
          · exact .inl there
        · exact .inr reached.visit

theorem nodup_of_run {fuel : Nat} (ran : run next fuel worklist visited = some result)
    (distinct : visited.Nodup) : result.Nodup := by
  induction fuel generalizing worklist visited with
  | zero =>
    cases worklist with
    | nil =>
      obtain rfl := Option.some.inj ran
      exact distinct
    | cons item worklist => exact absurd ran (by simp [run])
  | succ fuel ih =>
    cases worklist with
    | nil =>
      rw [run] at ran
      obtain rfl := Option.some.inj ran
      exact distinct
    | cons item worklist =>
      rw [run] at ran
      split_ifs at ran with old
      · exact ih ran distinct
      · exact ih ran (List.nodup_cons.mpr ⟨old,distinct⟩)

/-- Nothing is lost: what follows from a visited item is visited or on the list. -/
theorem closed_of_run {fuel : Nat} (ran : run next fuel worklist visited = some result)
    (closed : ∀ item ∈ visited,next item ⊆ visited ++ worklist) :
    visited ++ worklist ⊆ result ∧ ∀ item ∈ result,next item ⊆ result := by
  induction fuel generalizing worklist visited with
  | zero =>
    cases worklist with
    | nil =>
      obtain rfl := Option.some.inj ran
      rw [List.append_nil] at closed ⊢
      exact ⟨List.Subset.refl _,closed⟩
    | cons item worklist => exact absurd ran (by simp [run])
  | succ fuel ih =>
    cases worklist with
    | nil =>
      rw [run] at ran
      obtain rfl := Option.some.inj ran
      rw [List.append_nil] at closed ⊢
      exact ⟨List.Subset.refl _,closed⟩
    | cons item worklist =>
      rw [run] at ran
      split_ifs at ran with old
      · have same : visited ++ item :: worklist ⊆ visited ++ worklist := by
          intro x member
          rcases List.mem_append.mp member with there | there
          · exact List.mem_append_left _ there
          · rcases List.mem_cons.mp there with rfl | there
            · exact List.mem_append_left _ old
            · exact List.mem_append_right _ there
        obtain ⟨kept,closed'⟩ := ih ran fun y member => List.Subset.trans (closed y member) same
        exact ⟨List.Subset.trans same kept,closed'⟩
      · have moved : visited ++ item :: worklist ⊆
            item :: visited ++ ((next item).reverse ++ worklist) := by
          intro x member
          simp only [List.mem_append,List.mem_cons,List.mem_reverse] at member ⊢
          tauto
        obtain ⟨kept,closed'⟩ := ih ran fun y member => by
          rcases List.mem_cons.mp member with rfl | there
          · intro x follows
            simp [follows]
          · exact List.Subset.trans (closed y there) moved
        exact ⟨List.Subset.trans moved kept,closed'⟩

theorem visit_spec (known : ∀ item,next item ≠ [] → item ∈ items) (worklist : List α) :
    ∃ result,visit next items worklist = some result ∧
      ∀ item,item ∈ result ↔ Reached next worklist item := by
  have enough := Nat.le_refl (worklist.length + pending next items.dedup [])
  obtain ⟨result,ran⟩ := run_ends (List.nodup_dedup items)
    (fun item some => List.mem_dedup.mpr (known item some)) enough
  obtain ⟨start,closed⟩ := closed_of_run ran (by simp)
  refine ⟨result,ran,fun item => ⟨fun member => ?_,fun reached => mem_of_reached start closed reached⟩⟩
  exact (reached_of_run ran member).resolve_left List.not_mem_nil

end Worklist
