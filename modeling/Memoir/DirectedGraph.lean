import Mathlib.Data.List.Nodup
import Mathlib.Logic.Function.Basic
import Mathlib.Logic.Relation
import Mathlib.Order.Nat
import Mathlib.Order.Lattice.Nat

/-! The directed graphs of the compiler: no multiple edges, self-loops allowed, and any order of the
nodes and of the neighbours of a node. -/
namespace Memoir

structure DirectedGraph (NodeType EdgeType : Type) where
  nodes : List NodeType
  outNeighbors : NodeType → List (NodeType × EdgeType)
  inNeighbors : NodeType → List NodeType
  nodup : nodes.Nodup
  outNodup : ∀ v,((outNeighbors v).map Prod.fst).Nodup
  inNodup : ∀ v,(inNeighbors v).Nodup
  ends : ∀ v w,w ∈ (outNeighbors v).map Prod.fst → v ∈ nodes ∧ w ∈ nodes
  mem_inNeighbors : ∀ v w,v ∈ inNeighbors w ↔ w ∈ (outNeighbors v).map Prod.fst

namespace DirectedGraph

variable {NodeType EdgeType : Type}

section
variable (graph : DirectedGraph NodeType EdgeType)

def successors (n : NodeType) : List NodeType := (graph.outNeighbors n).map Prod.fst

def Edge (v w : NodeType) : Prop := w ∈ graph.successors v

def Reachable : NodeType → NodeType → Prop := Relation.ReflTransGen graph.Edge

inductive Walk (start : NodeType) : Nat → NodeType → Prop
  | start : Walk start 0 start
  | edge {length : Nat} {v w : NodeType} (walk : Walk start length v) (edge : graph.Edge v w) :
    Walk start (length + 1) w

/-- The length of a shortest walk. -/
noncomputable def distance (start v : NodeType) : Nat := sInf {length | graph.Walk start length v}

end

section
variable {graph : DirectedGraph NodeType EdgeType} {start v w : NodeType}

theorem source_mem (edge : graph.Edge v w) : v ∈ graph.nodes := (graph.ends v w edge).1

theorem target_mem (edge : graph.Edge v w) : w ∈ graph.nodes := (graph.ends v w edge).2

theorem reachable_mem (member : v ∈ graph.nodes) (path : graph.Reachable v w) : w ∈ graph.nodes := by
  cases path with
  | refl => exact member
  | tail _ edge => exact target_mem edge

theorem walk_of_reachable (path : graph.Reachable start v) : ∃ length,graph.Walk start length v := by
  induction path with
  | refl => exact ⟨0,.start⟩
  | tail _ edge ih =>
    obtain ⟨length,walk⟩ := ih
    exact ⟨length + 1,.edge walk edge⟩

theorem Walk.reachable {length : Nat} (walk : graph.Walk start length v) :
    graph.Reachable start v := by
  induction walk with
  | start => exact .refl
  | edge _ edge ih => exact ih.tail edge

theorem Walk.distance_le {length : Nat} (walk : graph.Walk start length v) :
    graph.distance start v ≤ length := Nat.sInf_le walk

theorem walk_distance (path : graph.Reachable start v) :
    graph.Walk start (graph.distance start v) v := Nat.sInf_mem (walk_of_reachable path)

theorem distance_edge (path : graph.Reachable start v) (edge : graph.Edge v w) :
    graph.distance start w ≤ graph.distance start v + 1 :=
  (Walk.edge (walk_distance path) edge).distance_le

end

variable [DecidableEq NodeType] (graph : DirectedGraph NodeType EdgeType)

/-- The neighbours of what is not a node cannot be asked for. -/
def outgoing (n : NodeType) : Option (List NodeType) :=
  if n ∈ graph.nodes then some (graph.successors n) else none

def incoming (n : NodeType) : Option (List NodeType) :=
  if n ∈ graph.nodes then some (graph.inNeighbors n) else none

/-- An edge that is not there cannot be asked for. -/
def getEdge (a b : NodeType) : Option EdgeType :=
  if a ∈ graph.nodes then (graph.outNeighbors a).lookup b else none

omit [DecidableEq NodeType] in
theorem nodup_push {items : List NodeType} {n : NodeType} (new : n ∉ items) (distinct : items.Nodup) :
    (items ++ [n]).Nodup := by
  rw [← List.concat_eq_append]
  exact List.Nodup.concat new distinct

theorem addEdge_out (a b v : NodeType) (edge : EdgeType) :
    (Function.update graph.outNeighbors a (graph.outNeighbors a ++ [(b,edge)]) v).map Prod.fst =
      if v = a then graph.successors a ++ [b] else graph.successors v := by
  split_ifs with same
  · subst same
    rw [Function.update_self,List.map_append]
    rfl
  · rw [Function.update_of_ne same]
    rfl

section AddEdge
variable {graph} {a b : NodeType} (edge : EdgeType)
  (new : a ∈ graph.nodes ∧ b ∈ graph.nodes ∧ b ∉ graph.successors a)

include new

theorem addEdge_outNodup (v : NodeType) :
    ((Function.update graph.outNeighbors a (graph.outNeighbors a ++ [(b,edge)]) v).map
      Prod.fst).Nodup := by
  rw [addEdge_out]
  split_ifs with same
  · exact nodup_push new.2.2 (graph.outNodup a)
  · exact graph.outNodup v

theorem addEdge_inNodup (v : NodeType) :
    (Function.update graph.inNeighbors b (graph.inNeighbors b ++ [a]) v).Nodup := by
  by_cases same : v = b
  · subst same
    rw [Function.update_self]
    exact nodup_push (fun there => new.2.2 ((graph.mem_inNeighbors a v).mp there)) (graph.inNodup v)
  · rw [Function.update_of_ne same]
    exact graph.inNodup v

theorem addEdge_ends (v w : NodeType)
    (member : w ∈ (Function.update graph.outNeighbors a (graph.outNeighbors a ++ [(b,edge)]) v).map
      Prod.fst) : v ∈ graph.nodes ∧ w ∈ graph.nodes := by
  rw [addEdge_out] at member
  split_ifs at member with same
  · subst same
    rcases List.mem_append.mp member with there | there
    · exact graph.ends v w there
    · obtain rfl := List.mem_singleton.mp there
      exact ⟨new.1,new.2.1⟩
  · exact graph.ends v w member

omit new in
theorem addEdge_mem_inNeighbors (v w : NodeType) :
    v ∈ Function.update graph.inNeighbors b (graph.inNeighbors b ++ [a]) w ↔
      w ∈ (Function.update graph.outNeighbors a (graph.outNeighbors a ++ [(b,edge)]) v).map
        Prod.fst := by
  rw [addEdge_out]
  have old : v ∈ graph.inNeighbors w ↔ w ∈ graph.successors v := graph.mem_inNeighbors v w
  by_cases target : w = b
  · subst target
    rw [Function.update_self,List.mem_append,List.mem_singleton,old]
    split_ifs with source
    · simp [source]
    · simp [source]
  · rw [Function.update_of_ne target,old]
    split_ifs with source
    · simp [source,target]
    · rfl

end AddEdge

def empty : DirectedGraph NodeType EdgeType where
  nodes := []
  outNeighbors _ := []
  inNeighbors _ := []
  nodup := List.nodup_nil
  outNodup _ := List.nodup_nil
  inNodup _ := List.nodup_nil
  ends _ _ member := absurd member List.not_mem_nil
  mem_inNeighbors _ _ := iff_of_false List.not_mem_nil List.not_mem_nil

/-- A node that is there already stays as it is. -/
def addNode (n : NodeType) : DirectedGraph NodeType EdgeType :=
  if new : n ∈ graph.nodes then graph
  else
    { graph with
      nodes := graph.nodes ++ [n]
      nodup := nodup_push new graph.nodup
      ends := fun v w member =>
        (graph.ends v w member).imp (List.mem_append_left [n]) (List.mem_append_left [n]) }

/-- An edge with an end that is not a node is not added, nor is one that is there already. -/
def addEdge (a b : NodeType) (edge : EdgeType) : DirectedGraph NodeType EdgeType :=
  if new : a ∈ graph.nodes ∧ b ∈ graph.nodes ∧ b ∉ graph.successors a then
    { graph with
      outNeighbors := Function.update graph.outNeighbors a (graph.outNeighbors a ++ [(b,edge)])
      inNeighbors := Function.update graph.inNeighbors b (graph.inNeighbors b ++ [a])
      outNodup := addEdge_outNodup edge new
      inNodup := addEdge_inNodup new
      ends := addEdge_ends edge new
      mem_inNeighbors := addEdge_mem_inNeighbors edge }
  else graph

variable {graph} {n a b v w : NodeType} {edge : EdgeType}

theorem outgoing_eq (member : n ∈ graph.nodes) : graph.outgoing n = some (graph.successors n) :=
  if_pos member

theorem mem_addNode : v ∈ (graph.addNode n).nodes ↔ v ∈ graph.nodes ∨ v = n := by
  unfold addNode
  split_ifs with old
  · constructor
    · exact .inl
    · rintro (there | rfl)
      · exact there
      · exact old
  · simp

theorem edge_addNode : (graph.addNode n).Edge v w ↔ graph.Edge v w := by
  unfold addNode
  split_ifs with old
  · rfl
  · rfl

theorem nodes_addEdge : (graph.addEdge a b edge).nodes = graph.nodes := by
  unfold addEdge
  split_ifs with new
  · rfl
  · rfl

theorem edge_addEdge : (graph.addEdge a b edge).Edge v w ↔
    graph.Edge v w ∨ v = a ∧ w = b ∧ a ∈ graph.nodes ∧ b ∈ graph.nodes := by
  unfold addEdge
  split_ifs with new
  · have added : ∀ w,w ∈ (Function.update graph.outNeighbors a (graph.outNeighbors a ++ [(b,edge)]) v).map
        Prod.fst ↔ w ∈ graph.successors v ∨ v = a ∧ w = b := by
      intro w
      rw [addEdge_out]
      split_ifs with same
      · simp [same]
      · simp [same]
    apply (added w).trans
    simp only [Edge,new.1,new.2.1,and_true]
  · constructor
    · exact .inl
    · rintro (old | ⟨rfl,rfl,source,target⟩)
      · exact old
      · by_contra missing
        exact new ⟨source,target,missing⟩

end DirectedGraph

end Memoir
