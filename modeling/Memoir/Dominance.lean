import Mathlib.Data.List.Basic
import Mathlib.Tactic.Push

/-! Dominance in a directed graph with an entry, by the walks from the entry, and
what a dominator tree, its frontiers and its preorder walk provide. -/
namespace Memoir.Dominance

structure Graph (β : Type) where
  entry : β
  successors : β → List β

namespace Graph

variable {β : Type} (graph : Graph β)

/-- A walk from the entry, with the vertices it has visited, the last one first. -/
inductive Walk : List β → β → Prop
  | start : Walk [graph.entry] graph.entry
  | step {visited : List β} {source target : β} (walk : Walk visited source)
      (edge : target ∈ graph.successors source) : Walk (target :: visited) target

def Reachable (vertex : β) : Prop := ∃ visited, graph.Walk visited vertex

/-- Every walk to `b` passes `a`; every vertex dominates an unreachable one. -/
def Dominates (a b : β) : Prop := ∀ visited, graph.Walk visited b → a ∈ visited

def StrictlyDominates (a b : β) : Prop := graph.Dominates a b ∧ a ≠ b

def InFrontier (a b : β) : Prop :=
  ∃ source, graph.Reachable source ∧ b ∈ graph.successors source ∧ graph.Dominates a source ∧
    ¬ graph.StrictlyDominates a b

inductive IteratedFrontier (sources kept : β → Prop) : β → Prop
  | first {a b : β} (source : sources a) (frontier : graph.InFrontier a b) (keep : kept b) :
    IteratedFrontier sources kept b
  | next {a b : β} (iterated : IteratedFrontier sources kept a) (frontier : graph.InFrontier a b)
    (keep : kept b) : IteratedFrontier sources kept b

variable {graph}

theorem Walk.head {visited : List β} {vertex : β} (walk : graph.Walk visited vertex) :
    ∃ earlier, visited = vertex :: earlier := by
  cases walk with
  | start => exact ⟨[],rfl⟩
  | step walk edge => exact ⟨_,rfl⟩

/-- A walk stops at each vertex it has visited. -/
theorem Walk.stop {visited : List β} {target vertex : β} (walk : graph.Walk visited target)
    (member : vertex ∈ visited) :
    ∃ earlier, graph.Walk earlier vertex ∧ earlier <:+ visited := by
  induction walk with
  | start =>
    obtain rfl := List.mem_singleton.mp member
    exact ⟨_,.start,List.suffix_refl _⟩
  | step walk edge ih =>
    rcases List.mem_cons.mp member with rfl | member
    · exact ⟨_,.step walk edge,List.suffix_refl _⟩
    · obtain ⟨earlier,stopped,suffix⟩ := ih member
      exact ⟨earlier,stopped,suffix.trans (List.suffix_cons _ _)⟩

theorem Dominates.refl (a : β) : graph.Dominates a a := by
  intro visited walk
  obtain ⟨earlier,rfl⟩ := walk.head
  exact List.mem_cons_self

theorem Dominates.trans {a b c : β} (first : graph.Dominates a b) (second : graph.Dominates b c) :
    graph.Dominates a c := by
  intro visited walk
  obtain ⟨earlier,stopped,suffix⟩ := walk.stop (second visited walk)
  exact suffix.subset (first earlier stopped)

/-- Two reachable vertices that dominate each other are the same: a walk to one
would stop at the other before, and so on. -/
theorem Dominates.antisymm {a b : β} (first : graph.Dominates a b) (second : graph.Dominates b a)
    (reachable : graph.Reachable a) : a = b := by
  by_contra apart
  have descend : ∀ bound visited, visited.length ≤ bound → ¬ graph.Walk visited a := by
    intro bound
    induction bound with
    | zero =>
      intro visited short walk
      obtain ⟨earlier,rfl⟩ := walk.head
      simp at short
    | succ bound ih =>
      intro visited short walk
      obtain ⟨earlier,rfl⟩ := walk.head
      obtain ⟨middle,stopped,suffix⟩ := walk.stop (second _ walk)
      obtain ⟨initial,restart,suffix'⟩ := stopped.stop (first _ stopped)
      refine ih initial ?_ restart
      obtain ⟨rest,rfl⟩ := stopped.head
      have strict : (b :: rest) <:+ earlier := by
        rcases List.suffix_cons_iff.mp suffix with same | suffix
        · exact absurd (List.cons.inj same).1.symm apart
        · exact suffix
      have := Nat.le_trans suffix'.length_le strict.length_le
      simp only [List.length_cons] at short
      omega
  obtain ⟨visited,walk⟩ := reachable
  exact descend visited.length visited (Nat.le_refl _) walk

theorem Reachable.successor {a b : β} (reachable : graph.Reachable a)
    (edge : b ∈ graph.successors a) : graph.Reachable b := by
  obtain ⟨visited,walk⟩ := reachable
  exact ⟨_,walk.step edge⟩

theorem Dominates.reachable {a b : β} (dominates : graph.Dominates a b)
    (reachable : graph.Reachable b) : graph.Reachable a := by
  obtain ⟨visited,walk⟩ := reachable
  obtain ⟨earlier,stopped,_⟩ := walk.stop (dominates visited walk)
  exact ⟨earlier,stopped⟩

/-- A strict dominator dominates every predecessor. -/
theorem StrictlyDominates.predecessor {a b source : β} (strict : graph.StrictlyDominates a b)
    (edge : b ∈ graph.successors source) : graph.Dominates a source := by
  intro visited walk
  exact (List.mem_cons.mp (strict.1 _ (walk.step edge))).resolve_left strict.2

theorem StrictlyDominates.trans_left {a b c : β} (first : graph.StrictlyDominates a b)
    (second : graph.Dominates b c) (reachable : graph.Reachable c) :
    graph.StrictlyDominates a c := by
  refine ⟨first.1.trans second,?_⟩
  rintro rfl
  exact first.2 (first.1.antisymm second reachable)

theorem StrictlyDominates.trans_right {a b c : β} (first : graph.Dominates a b)
    (second : graph.StrictlyDominates b c) (reachable : graph.Reachable b) :
    graph.StrictlyDominates a c := by
  refine ⟨first.trans second.1,?_⟩
  rintro rfl
  exact second.2 (second.1.antisymm first reachable)

/-- What dominates every predecessor of a vertex with one dominates the vertex. -/
theorem dominates_of_predecessors {a b : β} (entry : b ≠ graph.entry)
    (all : ∀ source, b ∈ graph.successors source → graph.Dominates a source) :
    graph.Dominates a b := by
  intro visited walk
  cases walk with
  | start => exact absurd rfl entry
  | step walk edge => exact List.mem_cons_of_mem _ (all _ edge _ walk)

/-- No reachable vertex but the entry dominates all its predecessors. -/
theorem not_self_predecessors {b : β} (entry : b ≠ graph.entry) (reachable : graph.Reachable b) :
    ∃ source, graph.Reachable source ∧ b ∈ graph.successors source ∧
      ¬ graph.Dominates b source := by
  by_contra none
  push Not at none
  have descend : ∀ bound visited, visited.length ≤ bound → ¬ graph.Walk visited b := by
    intro bound
    induction bound with
    | zero =>
      intro visited short walk
      obtain ⟨earlier,rfl⟩ := walk.head
      simp at short
    | succ bound ih =>
      intro visited short walk
      cases walk with
      | start => exact entry rfl
      | step walk edge =>
        obtain ⟨earlier,stopped,suffix⟩ := walk.stop (none _ ⟨_,walk⟩ edge _ walk)
        have := suffix.length_le
        simp only [List.length_cons] at short
        exact ih earlier (by omega) stopped
  obtain ⟨visited,walk⟩ := reachable
  exact descend visited.length visited (Nat.le_refl _) walk

end Graph

/-- A dominator tree with its frontiers, which only reachable vertices have, and
the preorder walk of the tree. -/
structure DominatorTree {β : Type} (graph : Graph β) where
  dominates : β → β → Bool
  frontier : β → Option (List β)
  preorder : List β
  dominates_iff : ∀ a b, dominates a b = true ↔ graph.Dominates a b
  frontier_reachable : ∀ a, (frontier a).isSome ↔ graph.Reachable a
  frontier_iff : ∀ a blocks, frontier a = some blocks → ∀ b, b ∈ blocks ↔ graph.InFrontier a b
  preorder_nodup : preorder.Nodup
  preorder_reachable : ∀ a, a ∈ preorder ↔ graph.Reachable a
  preorder_above : ∀ before b after, preorder = before ++ b :: after →
    ∀ a, graph.StrictlyDominates a b → a ∈ before
  preorder_subtree : ∀ before b after, preorder = before ++ b :: after →
    ∀ a ∈ before, ∀ c ∈ after, graph.Dominates a c → graph.Dominates a b

namespace DominatorTree

variable {β : Type} [DecidableEq β] {graph : Graph β} (tree : DominatorTree graph)

theorem index_of_split {before after : List β} {b : β}
    (split : tree.preorder = before ++ b :: after) : tree.preorder.idxOf b = before.length := by
  have nodup := tree.preorder_nodup
  rw [split] at nodup ⊢
  have absent : b ∉ before := fun member =>
    (List.nodup_append.mp nodup).2.2 b member b List.mem_cons_self rfl
  simp [List.idxOf_append,absent]

theorem split_preorder {b : β} (reachable : graph.Reachable b) :
    ∃ before after, tree.preorder = before ++ b :: after ∧ tree.preorder.idxOf b = before.length := by
  obtain ⟨before,after,split⟩ := List.append_of_mem ((tree.preorder_reachable b).mpr reachable)
  exact ⟨before,after,split,tree.index_of_split split⟩

/-- The walk visits dominators first. -/
theorem index_above {a b : β} (strict : graph.StrictlyDominates a b)
    (reachable : graph.Reachable b) : tree.preorder.idxOf a < tree.preorder.idxOf b := by
  obtain ⟨before,after,split,position⟩ := tree.split_preorder reachable
  have member := tree.preorder_above before b after split a strict
  rw [position,split,List.idxOf_append,if_pos member]
  exact List.idxOf_lt_length_iff.mpr member

/-- The walk leaves a subtree once. -/
theorem dominates_between {a b c : β} (first : tree.preorder.idxOf a < tree.preorder.idxOf b)
    (second : tree.preorder.idxOf b < tree.preorder.idxOf c) (reachable : graph.Reachable b)
    (reachable' : graph.Reachable c) (dominates : graph.Dominates a c) : graph.Dominates a b := by
  obtain ⟨before,after,split,position⟩ := tree.split_preorder reachable
  have apart : b ≠ c := by
    rintro rfl
    exact Nat.lt_irrefl _ second
  have earlier : a ∈ before := by
    by_contra absent
    rw [position] at first
    rw [split,List.idxOf_append,if_neg absent] at first
    omega
  have later : c ∈ after := by
    have member := (tree.preorder_reachable c).mpr reachable'
    rw [position] at second
    rw [split] at member second
    rcases List.mem_append.mp member with member | member
    · rw [List.idxOf_append,if_pos member] at second
      have := List.idxOf_lt_length_iff.mpr member
      omega
    · exact (List.mem_cons.mp member).resolve_left apart.symm
  exact tree.preorder_subtree before b after split a earlier c later dominates

theorem reachable_of_index {a b : β} (before : tree.preorder.idxOf a < tree.preorder.idxOf b) :
    graph.Reachable a := by
  refine (tree.preorder_reachable a).mp (List.idxOf_lt_length_iff.mp ?_)
  exact Nat.lt_of_lt_of_le before List.idxOf_le_length

end DominatorTree

end Memoir.Dominance
