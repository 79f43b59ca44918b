import Memoir.Traversals

/-! The topological order of a directed graph, from a depth-first walk with a temporary mark for the
nodes that it is in and a permanent one for those it has left. It fails on the temporary mark. -/
namespace Memoir.DirectedGraph

structure Marks (NodeType : Type) where
  order : List NodeType
  permanent : List NodeType
  temporary : List NodeType

/-- The inner option is what a helper returns: nothing when the ordering has failed, after which the
marks are not read. The outer one has no result where the walk does not end. -/
abbrev Ordering (NodeType : Type) := Option (Option (Marks NodeType))

variable {NodeType EdgeType : Type}

def forEach (visit : NodeType → Marks NodeType → Ordering NodeType) :
    List NodeType → Marks NodeType → Ordering NodeType
  | [],marks => some (some marks)
  | node :: rest,marks =>
    match visit node marks with
    | some (some marks) => forEach visit rest marks
    | some none => some none
    | none => none

variable [DecidableEq NodeType]

section
variable (graph : DirectedGraph NodeType EdgeType)

def topologicalOrderHelper : Nat → NodeType → Marks NodeType → Ordering NodeType
  | 0,_,_ => none
  | fuel + 1,node,marks =>
    if node ∈ marks.permanent then some (some marks)
    else if node ∈ marks.temporary then some none
    else
      (graph.outgoing node).bind fun neighbors =>
        match forEach (topologicalOrderHelper fuel) neighbors
            { marks with temporary := node :: marks.temporary } with
        | some (some marks) =>
          some (some ⟨marks.order ++ [node],node :: marks.permanent,marks.temporary.erase node⟩)
        | result => result

def topologicalOrder (fuel : Nat) : Option (Option (List NodeType)) :=
  let visit (node : NodeType) (marks : Marks NodeType) : Ordering NodeType :=
    if node ∈ marks.permanent then some (some marks)
    else graph.topologicalOrderHelper fuel node marks
  (forEach visit graph.nodes ⟨[],[],[]⟩).map fun result => result.map fun marks => marks.order.reverse

def Cyclic : Prop := ∃ v,Relation.TransGen graph.Edge v v

end

/-- Nodes are listed once and after all their successors; the nodes the walk is in are apart. -/
structure Ordered (graph : DirectedGraph NodeType EdgeType) (marks : Marks NodeType) : Prop where
  permanent : ∀ v,v ∈ marks.permanent ↔ v ∈ marks.order
  distinct : marks.order.Nodup
  listed : ∀ v ∈ marks.order,v ∈ graph.nodes
  apart : ∀ v ∈ marks.temporary,v ∉ marks.order
  temporaries : marks.temporary.Nodup
  nodes : ∀ v ∈ marks.temporary,v ∈ graph.nodes
  later : ∀ v ∈ marks.order,∀ w,graph.Edge v w →
    w ∈ marks.order ∧ marks.order.reverse.idxOf v < marks.order.reverse.idxOf w

def Settles (graph : DirectedGraph NodeType EdgeType) (result : Ordering NodeType)
    (before : Marks NodeType) (called : List NodeType) : Prop :=
  (∃ after,result = some (some after) ∧ Ordered graph after ∧ after.temporary = before.temporary ∧
    before.order ⊆ after.order ∧ called ⊆ after.order) ∨
  result = some none ∧ graph.Cyclic

variable {graph : DirectedGraph NodeType EdgeType} {node : NodeType} {marks : Marks NodeType}

theorem forEach_settles {visit : NodeType → Marks NodeType → Ordering NodeType}
    {items : List NodeType} (temporary : List NodeType) (ordered : Ordered graph marks)
    (same : marks.temporary = temporary)
    (settles : ∀ item ∈ items,∀ marks,Ordered graph marks → marks.temporary = temporary →
      Settles graph (visit item marks) marks [item]) :
    Settles graph (forEach visit items marks) marks items := by
  induction items generalizing marks with
  | nil => exact .inl ⟨marks,rfl,ordered,rfl,List.Subset.refl _,List.nil_subset _⟩
  | cons item items ih =>
    rw [forEach]
    rcases settles item List.mem_cons_self marks ordered same with
      ⟨between,ran,ordered',same',kept,listed⟩ | ⟨ran,cyclic⟩
    · rw [ran]
      have rest : ∀ item ∈ items,∀ marks,Ordered graph marks → marks.temporary = temporary →
          Settles graph (visit item marks) marks [item] := fun item there =>
        settles item (List.mem_cons_of_mem _ there)
      rcases ih ordered' (same'.trans same) rest with
        ⟨after,ran',ordered'',same'',kept',listed'⟩ | ⟨ran',cyclic⟩
      · refine .inl ⟨after,ran',ordered'',same''.trans same',List.Subset.trans kept kept',?_⟩
        apply List.cons_subset.mpr
        exact ⟨kept' (listed List.mem_cons_self),listed'⟩
      · exact .inr ⟨ran',cyclic⟩
    · rw [ran]
      exact .inr ⟨rfl,cyclic⟩

theorem Ordered.enter (ordered : Ordered graph marks) (member : node ∈ graph.nodes)
    (unlisted : node ∉ marks.permanent) (unmarked : node ∉ marks.temporary) :
    Ordered graph { marks with temporary := node :: marks.temporary } := by
  refine ⟨ordered.permanent,ordered.distinct,ordered.listed,?_,?_,?_,ordered.later⟩
  · intro v there
    rcases List.mem_cons.mp there with rfl | there
    · exact fun listed => unlisted ((ordered.permanent v).mpr listed)
    · exact ordered.apart v there
  · exact List.nodup_cons.mpr ⟨unmarked,ordered.temporaries⟩
  · intro v there
    rcases List.mem_cons.mp there with rfl | there
    · exact member
    · exact ordered.nodes v there

/-- The node is listed when all its successors are. -/
theorem Ordered.leave {temporary : List NodeType} (ordered : Ordered graph marks)
    (same : marks.temporary = node :: temporary) (listed : graph.successors node ⊆ marks.order) :
    Ordered graph ⟨marks.order ++ [node],node :: marks.permanent,marks.temporary.erase node⟩ := by
  have inside : node ∈ marks.temporary := same ▸ List.mem_cons_self
  have new : node ∉ marks.order := ordered.apart node inside
  have left : marks.temporary.erase node = temporary := by
    rw [same,List.erase_cons_head]
  have temporaries : node ∉ temporary ∧ temporary.Nodup :=
    List.nodup_cons.mp (same ▸ ordered.temporaries)
  have still : ∀ v ∈ temporary,v ∈ marks.temporary := fun v there =>
    same ▸ List.mem_cons_of_mem node there
  have behind : ∀ w ∈ marks.order,
      (node :: marks.order.reverse).idxOf w = marks.order.reverse.idxOf w + 1 := by
    intro w there
    apply List.idxOf_cons_ne
    rintro rfl
    exact new there
  refine ⟨?_,nodup_push new ordered.distinct,?_,?_,?_,?_,?_⟩
  · intro v
    rw [List.mem_cons,List.mem_append,List.mem_singleton,ordered.permanent]
    exact Or.comm
  · intro v there
    rcases List.mem_append.mp there with there | there
    · exact ordered.listed v there
    · obtain rfl := List.mem_singleton.mp there
      exact ordered.nodes v inside
  · intro v there there'
    rw [left] at there
    rcases List.mem_append.mp there' with there' | there'
    · exact ordered.apart v (still v there) there'
    · obtain rfl := List.mem_singleton.mp there'
      exact temporaries.1 there
  · rw [left]
    exact temporaries.2
  · intro v there
    rw [left] at there
    exact ordered.nodes v (still v there)
  · intro v there w edge
    rw [List.reverse_append,List.reverse_singleton,List.singleton_append]
    rcases List.mem_append.mp there with there | there
    · obtain ⟨there',less⟩ := ordered.later v there w edge
      rw [behind v there,behind w there']
      exact ⟨List.mem_append_left _ there',Nat.succ_lt_succ less⟩
    · obtain rfl := List.mem_singleton.mp there
      rw [List.idxOf_cons_self,behind w (listed edge)]
      exact ⟨List.mem_append_left _ (listed edge),Nat.succ_pos _⟩

theorem topologicalOrderHelper_settles {fuel : Nat} (ordered : Ordered graph marks)
    (member : node ∈ graph.nodes) (path : ∀ v ∈ marks.temporary,Relation.TransGen graph.Edge v node)
    (enough : graph.nodes.length < fuel + marks.temporary.length) :
    Settles graph (graph.topologicalOrderHelper fuel node marks) marks [node] := by
  induction fuel generalizing node marks with
  | zero =>
    have bound := (List.subperm_of_subset ordered.temporaries ordered.nodes).length_le
    omega
  | succ fuel ih =>
    rw [topologicalOrderHelper]
    split_ifs with permanent temporary
    · refine .inl ⟨marks,rfl,ordered,rfl,List.Subset.refl _,?_⟩
      exact List.cons_subset.mpr ⟨(ordered.permanent node).mp permanent,List.nil_subset _⟩
    · exact .inr ⟨rfl,node,path node temporary⟩
    · rw [outgoing_eq member,Option.bind_some]
      have entered := ordered.enter member permanent temporary
      have each : Settles graph (forEach (graph.topologicalOrderHelper fuel) (graph.successors node)
          { marks with temporary := node :: marks.temporary })
          { marks with temporary := node :: marks.temporary } (graph.successors node) := by
        apply forEach_settles (node :: marks.temporary) entered rfl
        intro w edge marks' ordered' same
        apply ih ordered' (target_mem edge)
        · intro v there
          rw [same] at there
          rcases List.mem_cons.mp there with rfl | there
          · exact .single edge
          · exact (path v there).tail edge
        · rw [same,List.length_cons]
          omega
      rcases each with ⟨after,ran,ordered',same,kept,listed⟩ | ⟨ran,cyclic⟩
      · rw [ran]
        refine .inl ⟨_,rfl,ordered'.leave same listed,?_,?_,?_⟩
        · change after.temporary.erase node = marks.temporary
          rw [same,List.erase_cons_head]
        · exact List.Subset.trans kept (List.subset_append_left _ _)
        · exact List.subset_append_right _ _
      · rw [ran]
        exact .inr ⟨rfl,cyclic⟩

theorem acyclic_of_before {order : List NodeType}
    (before : ∀ v w,graph.Edge v w → order.idxOf v < order.idxOf w) : ¬ graph.Cyclic := by
  rintro ⟨v,path⟩
  have less : ∀ w,Relation.TransGen graph.Edge v w → order.idxOf v < order.idxOf w := by
    intro w path
    induction path with
    | single edge => exact before _ _ edge
    | tail _ edge ih => exact ih.trans (before _ _ edge)
  exact Nat.lt_irrefl _ (less v path)

/-- The walk ends with an order of all nodes along the edges, or with nothing if there is a cycle. -/
theorem topologicalOrder_correct (graph : DirectedGraph NodeType EdgeType) :
    ∃ enough,∀ fuel ≥ enough,∃ result,graph.topologicalOrder fuel = some result ∧
      (¬ graph.Cyclic → ∃ order,result = some order ∧ order.Nodup ∧
        (∀ v,v ∈ order ↔ v ∈ graph.nodes) ∧
        ∀ u v,graph.Edge u v → order.idxOf u < order.idxOf v) ∧
      (graph.Cyclic → result = none) := by
  refine ⟨graph.nodes.length + 1,fun fuel enough => ?_⟩
  have start : Ordered graph ⟨[],[],[]⟩ :=
    ⟨fun _ => Iff.rfl,List.nodup_nil,by simp,by simp,List.nodup_nil,by simp,by simp⟩
  have each : Settles graph (forEach (fun node marks =>
      if node ∈ marks.permanent then some (some marks)
      else graph.topologicalOrderHelper fuel node marks) graph.nodes ⟨[],[],[]⟩) ⟨[],[],[]⟩
      graph.nodes := by
    apply forEach_settles [] start rfl
    intro node member marks ordered same
    split_ifs with permanent
    · refine .inl ⟨marks,rfl,ordered,rfl,List.Subset.refl _,?_⟩
      exact List.cons_subset.mpr ⟨(ordered.permanent node).mp permanent,List.nil_subset _⟩
    · apply topologicalOrderHelper_settles ordered member
      · rw [same]
        simp
      · omega
  rcases each with ⟨after,ran,ordered,_,_,listed⟩ | ⟨ran,cyclic⟩
  · have before : ∀ u v,graph.Edge u v →
        after.order.reverse.idxOf u < after.order.reverse.idxOf v := fun u v edge =>
      (ordered.later u (listed (source_mem edge)) v edge).2
    refine ⟨some after.order.reverse,by rw [topologicalOrder,ran]; rfl,fun _ => ?_,?_⟩
    · refine ⟨after.order.reverse,rfl,List.nodup_reverse.mpr ordered.distinct,fun v => ?_,before⟩
      rw [List.mem_reverse]
      exact ⟨ordered.listed v,fun there => listed there⟩
    · exact fun cyclic => absurd cyclic (acyclic_of_before before)
  · refine ⟨none,by rw [topologicalOrder,ran]; rfl,fun acyclic => absurd cyclic acyclic,fun _ => rfl⟩

end Memoir.DirectedGraph
