import Memoir.Dominance

/-! The dominator tree of a graph whose walks from the entry all end, read off a list of the walks. -/
namespace Memoir.Dominance

namespace Graph

variable {β : Type} (graph : Graph β)

def walks : Nat → List (List β × β)
  | 0 => [([graph.entry],graph.entry)]
  | n + 1 => (walks n).flatMap fun walk => (graph.successors walk.2).map fun target =>
      (target :: walk.1,target)

def walksBelow (depth : Nat) : List (List β × β) := (List.range depth).flatMap graph.walks

variable {graph}

theorem walk_of_mem {n : Nat} {visited : List β} {b : β} (member : (visited,b) ∈ graph.walks n) :
    graph.Walk visited b := by
  induction n generalizing visited b with
  | zero =>
    obtain ⟨rfl,rfl⟩ := Prod.mk.inj (List.mem_singleton.mp member)
    exact .start
  | succ n ih =>
    obtain ⟨⟨earlier,source⟩,shorter,member⟩ := List.mem_flatMap.mp member
    obtain ⟨target,edge,same⟩ := List.mem_map.mp member
    obtain ⟨rfl,rfl⟩ := Prod.mk.inj same
    exact (ih shorter).step edge

theorem Walk.mem_walks {visited : List β} {b : β} (walk : graph.Walk visited b) :
    ∃ n,(visited,b) ∈ graph.walks n := by
  induction walk with
  | start => exact ⟨0,List.mem_singleton.mpr rfl⟩
  | step walk edge ih =>
    obtain ⟨n,member⟩ := ih
    exact ⟨n + 1,List.mem_flatMap.mpr ⟨_,member,List.mem_map.mpr ⟨_,edge,rfl⟩⟩⟩

theorem walks_ended {depth : Nat} (ended : graph.walks depth = []) {n : Nat} (more : depth ≤ n) :
    graph.walks n = [] := by
  induction more with
  | refl => exact ended
  | step _ ih => rw [walks,ih,List.flatMap_nil]

theorem walk_iff {depth : Nat} (ended : graph.walks depth = []) {visited : List β} {b : β} :
    graph.Walk visited b ↔ (visited,b) ∈ graph.walksBelow depth := by
  simp only [walksBelow,List.mem_flatMap,List.mem_range]
  constructor
  · intro walk
    obtain ⟨n,member⟩ := walk.mem_walks
    refine ⟨n,?_,member⟩
    by_contra more
    rw [walks_ended ended (Nat.not_lt.mp more)] at member
    exact List.not_mem_nil member
  · rintro ⟨n,_,member⟩
    exact walk_of_mem member

theorem reachable_iff {depth : Nat} (ended : graph.walks depth = []) {b : β} :
    graph.Reachable b ↔ ∃ walk ∈ graph.walksBelow depth,walk.2 = b := by
  constructor
  · rintro ⟨visited,walk⟩
    exact ⟨_,(walk_iff ended).mp walk,rfl⟩
  · rintro ⟨⟨visited,_⟩,member,rfl⟩
    exact ⟨visited,(walk_iff ended).mpr member⟩

variable [DecidableEq β]

def dominatesBelow (graph : Graph β) (depth : Nat) (a b : β) : Bool :=
  (graph.walksBelow depth).all fun walk => walk.2 ≠ b || walk.1.contains a

/-- The targets of edges out of what a vertex dominates, where it does not dominate them strictly. -/
def frontierBelow (graph : Graph β) (depth : Nat) (a : β) : List β :=
  ((graph.walksBelow depth).filter fun walk => graph.dominatesBelow depth a walk.2).flatMap fun walk =>
    (graph.successors walk.2).filter fun b => !(graph.dominatesBelow depth a b && a ≠ b)

/-- What a preorder walk has behind it and in front of it, at each of its vertices. -/
def visitsInOrder (graph : Graph β) (depth : Nat) (before : List β) : List β → Bool
  | [] => true
  | b :: after =>
    (before ++ b :: after).all (fun a => !(graph.dominatesBelow depth a b && a ≠ b) || before.contains a) &&
      before.all (fun a => after.all fun c =>
        !graph.dominatesBelow depth a c || graph.dominatesBelow depth a b) &&
      visitsInOrder graph depth (before ++ [b]) after

theorem dominatesBelow_iff {depth : Nat} (ended : graph.walks depth = []) {a b : β} :
    graph.dominatesBelow depth a b = true ↔ graph.Dominates a b := by
  simp only [dominatesBelow,List.all_eq_true,Prod.forall,Bool.or_eq_true,decide_eq_true_eq,
    List.contains_iff_mem,← walk_iff ended,Dominates]
  constructor
  · exact fun all visited walk => (all visited b walk).resolve_left fun apart => apart rfl
  · intro all visited b' walk
    by_cases same : b' = b
    · exact .inr (all visited (same ▸ walk))
    · exact .inl same

theorem strictlyBelow_iff {depth : Nat} (ended : graph.walks depth = []) {a b : β} :
    (graph.dominatesBelow depth a b && a ≠ b) = true ↔ graph.StrictlyDominates a b := by
  rw [Bool.and_eq_true,dominatesBelow_iff ended,decide_eq_true_eq,StrictlyDominates]

theorem mem_frontierBelow {depth : Nat} (ended : graph.walks depth = []) {a b : β} :
    b ∈ graph.frontierBelow depth a ↔ graph.InFrontier a b := by
  simp only [frontierBelow,List.mem_flatMap,List.mem_filter,dominatesBelow_iff ended,Bool.not_eq_true',
    ← Bool.not_eq_true,strictlyBelow_iff ended]
  constructor
  · rintro ⟨walk,⟨member,above⟩,edge,outside⟩
    exact ⟨walk.2,(reachable_iff ended).mpr ⟨walk,member,rfl⟩,edge,above,outside⟩
  · rintro ⟨source,reachable,edge,above,outside⟩
    obtain ⟨walk,member,rfl⟩ := (reachable_iff ended).mp reachable
    exact ⟨walk,⟨member,above⟩,edge,outside⟩

theorem visitsInOrder_split {depth : Nat} {before middle after : List β} {b : β}
    (ordered : graph.visitsInOrder depth before (middle ++ b :: after) = true) :
    graph.visitsInOrder depth (before ++ middle) (b :: after) = true := by
  induction middle generalizing before with
  | nil => rwa [List.append_nil]
  | cons a middle ih =>
    rw [List.cons_append,visitsInOrder,Bool.and_eq_true] at ordered
    have rest := ih ordered.2
    rwa [List.append_assoc,List.singleton_append] at rest

end Graph

/-- The walks end below a depth, and the vertices that they get to are in the order of a preorder walk. -/
def Graph.isAcyclic {β : Type} [DecidableEq β] (graph : Graph β) (depth : Nat) (preorder : List β) : Bool :=
  (graph.walks depth).isEmpty && decide preorder.Nodup &&
  (graph.walksBelow depth).all (fun walk => preorder.contains walk.2) &&
  preorder.all (fun a => (graph.walksBelow depth).any fun walk => walk.2 = a) &&
  graph.visitsInOrder depth [] preorder

theorem Graph.isAcyclic_iff {β : Type} [DecidableEq β] {graph : Graph β} {depth : Nat} {preorder : List β} :
    graph.isAcyclic depth preorder = true ↔ graph.walks depth = [] ∧ preorder.Nodup ∧
      (∀ walk ∈ graph.walksBelow depth,walk.2 ∈ preorder) ∧
      (∀ a ∈ preorder,∃ walk ∈ graph.walksBelow depth,walk.2 = a) ∧
      graph.visitsInOrder depth [] preorder = true := by
  simp [isAcyclic,List.isEmpty_iff,and_assoc]

def DominatorTree.acyclic {β : Type} [DecidableEq β] (graph : Graph β) (depth : Nat) (preorder : List β)
    (acyclic : graph.isAcyclic depth preorder = true) : DominatorTree graph :=
  have checks := Graph.isAcyclic_iff.mp acyclic
  have ended := checks.1
  have complete := checks.2.2.1
  have sound := checks.2.2.2.1
  have ordered := checks.2.2.2.2
  { dominates := graph.dominatesBelow depth
    frontier a := if a ∈ preorder then some (graph.frontierBelow depth a) else none
    preorder := preorder
    dominates_iff a b := Graph.dominatesBelow_iff ended
    frontier_reachable := by
      intro a
      rw [Graph.reachable_iff ended]
      split_ifs with member
      · exact iff_of_true rfl (sound a member)
      · apply iff_of_false Bool.false_ne_true
        rintro ⟨walk,found,rfl⟩
        exact member (complete walk found)
    frontier_iff := by
      intro a blocks found b
      split_ifs at found
      obtain rfl := Option.some.inj found
      exact Graph.mem_frontierBelow ended
    preorder_nodup := checks.2.1
    preorder_reachable := by
      intro a
      rw [Graph.reachable_iff ended]
      constructor
      · exact sound a
      · rintro ⟨walk,found,rfl⟩
        exact complete walk found
    preorder_above := by
      intro before b after split a above
      have here := Graph.visitsInOrder_split (split ▸ ordered)
      simp only [Graph.visitsInOrder,Bool.and_eq_true,List.all_eq_true] at here
      have reachable : graph.Reachable b := by
        apply (Graph.reachable_iff ended).mpr (sound b _)
        rw [split]
        exact List.mem_append_right _ List.mem_cons_self
      obtain ⟨walk,found,rfl⟩ := (Graph.reachable_iff ended).mp (above.1.reachable reachable)
      have first := here.1.1 _ (split ▸ complete walk found)
      rw [(Graph.strictlyBelow_iff ended).mpr above] at first
      exact List.contains_iff_mem.mp first
    preorder_subtree := by
      intro before b after split a member c member' above
      have here := Graph.visitsInOrder_split (split ▸ ordered)
      simp only [Graph.visitsInOrder,Bool.and_eq_true,List.all_eq_true] at here
      have first := here.1.2 a member c member'
      rw [(Graph.dominatesBelow_iff ended).mpr above] at first
      exact (Graph.dominatesBelow_iff ended).mp first }

end Memoir.Dominance
