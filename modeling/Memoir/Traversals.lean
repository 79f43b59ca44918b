import Memoir.DirectedGraph
import Memoir.Worklist

/-! The traversals of a directed graph from a start node: depth first with a stack, where a node is
marked when it is popped, and breadth first with a queue, where it is marked when it is pushed. -/
namespace Memoir.DirectedGraph

variable {NodeType EdgeType : Type} [DecidableEq NodeType]

section
variable (graph : DirectedGraph NodeType EdgeType)

/-- The top of the stack is its head. The loop has no result where it does not end. -/
def depthFirstLoop : Nat → List NodeType → List NodeType → List NodeType → Option (List NodeType)
  | _,[],_,out => some out
  | 0,_ :: _,_,_ => none
  | fuel + 1,v :: s,discovered,out =>
    if v ∈ discovered then depthFirstLoop fuel s discovered out
    else
      (graph.outgoing v).bind fun neighbors =>
        depthFirstLoop fuel (neighbors.reverse ++ s) (v :: discovered) (out ++ [v])

def depthFirstOrder (fuel : Nat) (start : NodeType) : Option (List NodeType) :=
  graph.depthFirstLoop fuel [start] [] []

def explore : List NodeType → List NodeType → List NodeType → List NodeType × List NodeType
  | [],explored,queue => (explored,queue)
  | w :: neighbors,explored,queue =>
    if w ∈ explored then explore neighbors explored queue
    else explore neighbors (w :: explored) (queue ++ [w])

/-- The front of the queue is its head. -/
def breadthFirstLoop : Nat → List NodeType → List NodeType → List NodeType → Option (List NodeType)
  | _,[],_,out => some out
  | 0,_ :: _,_,_ => none
  | fuel + 1,v :: queue,explored,out =>
    (graph.outgoing v).bind fun neighbors =>
      let (explored,queue) := explore neighbors explored queue
      breadthFirstLoop fuel queue explored (out ++ [v])

def breadthFirstOrder (fuel : Nat) (start : NodeType) : Option (List NodeType) :=
  graph.breadthFirstLoop fuel [start] [start] []

end

variable {graph : DirectedGraph NodeType EdgeType} {start : NodeType}

section DepthFirst
variable {stack discovered : List NodeType}

/-- The loop is that over a worklist, which has the marked nodes in the order of their marks. -/
theorem depthFirstLoop_eq (fuel : Nat) (members : ∀ v ∈ stack,v ∈ graph.nodes) :
    graph.depthFirstLoop fuel stack discovered discovered.reverse =
      (Worklist.run graph.successors fuel stack discovered).map List.reverse := by
  induction fuel generalizing stack discovered with
  | zero =>
    cases stack with
    | nil => rfl
    | cons v s => rfl
  | succ fuel ih =>
    cases stack with
    | nil => rfl
    | cons v s =>
      have rest : ∀ w ∈ s,w ∈ graph.nodes := fun w there => members w (List.mem_cons_of_mem v there)
      rw [depthFirstLoop,Worklist.run]
      split_ifs with old
      · exact ih rest
      · rw [outgoing_eq (members v List.mem_cons_self),Option.bind_some,← List.reverse_cons]
        apply ih
        intro w there
        rcases List.mem_append.mp there with follows | there
        · exact target_mem (List.mem_reverse.mp follows)
        · exact rest w there

omit [DecidableEq NodeType] in
theorem reached_iff (v : NodeType) :
    Worklist.Reached graph.successors [start] v ↔ graph.Reachable start v := by
  constructor
  · rintro ⟨first,member,path⟩
    obtain rfl := List.mem_singleton.mp member
    exact path
  · intro path
    exact ⟨start,List.mem_singleton_self start,path⟩

theorem depthFirstOrder_spec (member : start ∈ graph.nodes) :
    ∃ enough,∀ fuel ≥ enough,∃ order,graph.depthFirstOrder fuel start = some order ∧
      order.Nodup ∧ ∀ v,v ∈ order ↔ graph.Reachable start v := by
  refine ⟨[start].length + Worklist.pending graph.successors graph.nodes [],fun fuel enough => ?_⟩
  have known : ∀ v,graph.successors v ≠ [] → v ∈ graph.nodes := by
    intro v some
    obtain ⟨w,follows⟩ := List.exists_mem_of_ne_nil _ some
    exact source_mem follows
  obtain ⟨visited,ran⟩ := Worklist.run_ends graph.nodup known enough
  have members : ∀ v ∈ [start],v ∈ graph.nodes := by
    intro v there
    obtain rfl := List.mem_singleton.mp there
    exact member
  have same : graph.depthFirstOrder fuel start = some visited.reverse := by
    apply (depthFirstLoop_eq fuel members).trans
    rw [ran]
    rfl
  obtain ⟨first,closed⟩ := Worklist.closed_of_run ran (by simp)
  refine ⟨visited.reverse,same,?_,fun v => ?_⟩
  · apply List.nodup_reverse.mpr
    exact Worklist.nodup_of_run ran List.nodup_nil
  · rw [List.mem_reverse,← reached_iff]
    constructor
    · intro there
      exact (Worklist.reached_of_run ran there).resolve_left List.not_mem_nil
    · exact Worklist.mem_of_reached first closed

end DepthFirst

section BreadthFirst

theorem explore_spec (neighbors explored queue : List NodeType) :
    ∃ fresh,explore neighbors explored queue = (fresh.reverse ++ explored,queue ++ fresh) ∧
      fresh.Nodup ∧ ∀ w,w ∈ fresh ↔ w ∈ neighbors ∧ w ∉ explored := by
  induction neighbors generalizing explored queue with
  | nil => exact ⟨[],by simp [explore],List.nodup_nil,by simp⟩
  | cons v neighbors ih =>
    rw [explore]
    split_ifs with old
    · obtain ⟨fresh,same,distinct,mem⟩ := ih explored queue
      refine ⟨fresh,same,distinct,fun w => ?_⟩
      rw [mem,List.mem_cons]
      constructor
      · exact And.imp_left .inr
      · rintro ⟨rfl | there,new⟩
        · exact absurd old new
        · exact ⟨there,new⟩
    · obtain ⟨fresh,same,distinct,mem⟩ := ih (v :: explored) (queue ++ [v])
      refine ⟨v :: fresh,by rw [same]; simp,List.nodup_cons.mpr ⟨?_,distinct⟩,fun w => ?_⟩
      · intro again
        exact ((mem v).mp again).2 List.mem_cons_self
      · rw [List.mem_cons,mem,List.mem_cons,List.mem_cons]
        by_cases same : w = v
        · subst same
          simp [old]
        · simp [same]

/-- Nodes are listed and queued by their distance, and those in the queue differ by at most one. -/
structure Layered (graph : DirectedGraph NodeType EdgeType) (start : NodeType)
    (queue explored out : List NodeType) : Prop where
  mem_explored : ∀ v,v ∈ explored ↔ v ∈ out ++ queue
  distinct : (out ++ queue).Nodup
  reached : ∀ v ∈ out ++ queue,graph.Reachable start v
  first : start ∈ out ++ queue
  closed : ∀ v ∈ out,∀ w,graph.Edge v w → w ∈ out ++ queue
  sorted : (out ++ queue).Pairwise fun v w => graph.distance start v ≤ graph.distance start w
  near : ∀ v ∈ queue,∀ w ∈ queue,graph.distance start w ≤ graph.distance start v + 1

variable {queue explored out fresh : List NodeType} {v w : NodeType}

omit [DecidableEq NodeType] in
theorem layered_start : Layered graph start [start] [start] [] := by
  refine ⟨fun v => Iff.rfl,List.nodup_singleton start,?_,List.mem_singleton_self start,?_,
    List.pairwise_singleton _ start,?_⟩
  · intro v there
    obtain rfl := List.mem_singleton.mp there
    exact .refl
  · intro v there
    exact absurd there List.not_mem_nil
  · intro v there w there'
    obtain rfl := List.mem_singleton.mp there
    obtain rfl := List.mem_singleton.mp there'
    exact Nat.le_succ _

/-- A walk leaves the listed nodes through the queue. -/
theorem Layered.leaves (layered : Layered graph start queue explored out) {length : Nat}
    (walk : graph.Walk start length w) (new : w ∉ out ++ queue) :
    ∃ v ∈ queue,graph.distance start v < length := by
  induction walk with
  | start => exact absurd layered.first new
  | @edge length u w walk edge ih =>
    by_cases old : u ∈ out ++ queue
    · rcases List.mem_append.mp old with listed | queued
      · exact absurd (layered.closed u listed w edge) new
      · exact ⟨u,queued,Nat.lt_succ_of_le walk.distance_le⟩
    · obtain ⟨v,queued,less⟩ := ih old
      exact ⟨v,queued,Nat.lt_succ_of_lt less⟩

theorem Layered.distance_fresh (layered : Layered graph start (v :: queue) explored out)
    (edge : graph.Edge v w) (new : w ∉ out ++ v :: queue) :
    graph.distance start w = graph.distance start v + 1 := by
  have path := layered.reached v (List.mem_append_right out List.mem_cons_self)
  have least : graph.distance start v < graph.distance start w := by
    obtain ⟨u,queued,less⟩ := layered.leaves (walk_distance (path.tail edge)) new
    have ordered := (List.pairwise_append.mp layered.sorted).2.1
    rcases List.mem_cons.mp queued with rfl | queued
    · exact less
    · exact Nat.lt_of_le_of_lt (List.rel_of_pairwise_cons ordered queued) less
  have most := distance_edge path edge
  omega

theorem Layered.step (layered : Layered graph start (v :: queue) explored out)
    (distinct : fresh.Nodup)
    (mem : ∀ w,w ∈ fresh ↔ w ∈ graph.successors v ∧ w ∉ explored) :
    Layered graph start (queue ++ fresh) (fresh.reverse ++ explored) (out ++ [v]) := by
  have split : out ++ [v] ++ (queue ++ fresh) = out ++ v :: queue ++ fresh := by simp
  have edge : ∀ w ∈ fresh,graph.Edge v w := fun w there => ((mem w).mp there).1
  have new : ∀ w ∈ fresh,w ∉ out ++ v :: queue := by
    intro w there old
    exact ((mem w).mp there).2 ((layered.mem_explored w).mpr old)
  have head : v ∈ out ++ v :: queue := List.mem_append_right out List.mem_cons_self
  have far : ∀ w ∈ fresh,graph.distance start w = graph.distance start v + 1 := fun w there =>
    layered.distance_fresh (edge w there) (new w there)
  have after : ∀ w ∈ queue,graph.distance start v ≤ graph.distance start w := fun w there =>
    List.rel_of_pairwise_cons (List.pairwise_append.mp layered.sorted).2.1 there
  have within : ∀ w ∈ out ++ v :: queue,graph.distance start w ≤ graph.distance start v + 1 := by
    intro w there
    rcases List.mem_append.mp there with listed | queued
    · exact Nat.le_succ_of_le
        ((List.pairwise_append.mp layered.sorted).2.2 w listed v List.mem_cons_self)
    · exact layered.near v List.mem_cons_self w queued
  refine ⟨?_,?_,?_,?_,?_,?_,?_⟩
  · intro w
    rw [split,List.mem_append,List.mem_append,List.mem_reverse,layered.mem_explored,Or.comm]
  · rw [split]
    exact List.nodup_append'.mpr ⟨layered.distinct,distinct,fun w old there => new w there old⟩
  · intro w there
    rw [split] at there
    rcases List.mem_append.mp there with old | there
    · exact layered.reached w old
    · exact (layered.reached v head).tail (edge w there)
  · rw [split]
    exact List.mem_append_left fresh layered.first
  · intro u listed w follows
    rw [split]
    by_cases old : w ∈ out ++ v :: queue
    · exact List.mem_append_left fresh old
    · apply List.mem_append_right
      rcases List.mem_append.mp listed with listed | same
      · exact absurd (layered.closed u listed w follows) old
      · obtain rfl := List.mem_singleton.mp same
        exact (mem w).mpr ⟨follows,fun there => old ((layered.mem_explored w).mp there)⟩
  · rw [split]
    apply List.pairwise_append.mpr
    refine ⟨layered.sorted,?_,?_⟩
    · apply List.pairwise_of_forall_mem_list
      intro u there w there'
      rw [far u there,far w there']
    · intro u old w there
      rw [far w there]
      exact within u old
  · intro u there w there'
    have low : graph.distance start v ≤ graph.distance start u := by
      rcases List.mem_append.mp there with queued | there
      · exact after u queued
      · rw [far u there]
        exact Nat.le_succ _
    have high : graph.distance start w ≤ graph.distance start v + 1 := by
      rcases List.mem_append.mp there' with queued | there'
      · exact layered.near v List.mem_cons_self w (List.mem_cons_of_mem v queued)
      · exact Nat.le_of_eq (far w there')
    omega

theorem breadthFirstLoop_spec (fuel : Nat) (layered : Layered graph start queue explored out)
    (member : start ∈ graph.nodes) (enough : graph.nodes.length ≤ fuel + out.length) :
    ∃ order marked,graph.breadthFirstLoop fuel queue explored out = some order ∧
      Layered graph start [] marked order := by
  have bound : (out ++ queue).length ≤ graph.nodes.length := by
    apply (List.subperm_of_subset layered.distinct _).length_le
    intro v there
    exact reachable_mem member (layered.reached v there)
  rw [List.length_append] at bound
  induction fuel generalizing queue explored out with
  | zero =>
    obtain rfl := List.eq_nil_of_length_eq_zero (show queue.length = 0 by omega)
    exact ⟨out,explored,by rw [breadthFirstLoop],layered⟩
  | succ fuel ih =>
    cases queue with
    | nil => exact ⟨out,explored,by rw [breadthFirstLoop],layered⟩
    | cons v queue =>
      have node : v ∈ graph.nodes :=
        reachable_mem member (layered.reached v (List.mem_append_right out List.mem_cons_self))
      obtain ⟨fresh,explores,distinct,mem⟩ := explore_spec (graph.successors v) explored queue
      have next := layered.step distinct mem
      have bound' : (out ++ [v] ++ (queue ++ fresh)).length ≤ graph.nodes.length := by
        apply (List.subperm_of_subset next.distinct _).length_le
        intro w there
        exact reachable_mem member (next.reached w there)
      rw [breadthFirstLoop,outgoing_eq node,Option.bind_some,explores]
      apply ih next
      · rw [List.length_append,List.length_singleton]
        omega
      · rwa [List.length_append] at bound'

theorem breadthFirstOrder_spec (member : start ∈ graph.nodes) :
    ∃ enough,∀ fuel ≥ enough,∃ order,graph.breadthFirstOrder fuel start = some order ∧
      order.Nodup ∧ (∀ v,v ∈ order ↔ graph.Reachable start v) ∧
      order.Pairwise fun v w => graph.distance start v ≤ graph.distance start w := by
  refine ⟨graph.nodes.length,fun fuel enough => ?_⟩
  obtain ⟨order,marked,ran,layered⟩ := breadthFirstLoop_spec fuel layered_start member enough
  refine ⟨order,ran,?_,?_,?_⟩
  · simpa using layered.distinct
  · intro v
    constructor
    · intro there
      exact layered.reached v (List.mem_append_left [] there)
    · intro path
      induction path with
      | refl => simpa using layered.first
      | tail _ edge ih => simpa using layered.closed _ ih _ edge
  · simpa using layered.sorted

end BreadthFirst

/-- Both traversals end and list every reachable node once and no other, the breadth-first one by
distance. -/
theorem traversals_list_reachable (graph : DirectedGraph NodeType EdgeType)
    (member : start ∈ graph.nodes) :
    (∃ enough,∀ fuel ≥ enough,∃ order,graph.depthFirstOrder fuel start = some order ∧
      order.Nodup ∧ ∀ v,v ∈ order ↔ graph.Reachable start v) ∧
    ∃ enough,∀ fuel ≥ enough,∃ order,graph.breadthFirstOrder fuel start = some order ∧
      order.Nodup ∧ (∀ v,v ∈ order ↔ graph.Reachable start v) ∧
      order.Pairwise fun v w => graph.distance start v ≤ graph.distance start w :=
  ⟨depthFirstOrder_spec member,breadthFirstOrder_spec member⟩

/-- A triangle with a self-loop. -/
def triangle : DirectedGraph Nat Unit :=
  let nodes := ((empty.addNode 0).addNode 1).addNode 2
  (((nodes.addEdge 0 1 ()).addEdge 1 2 ()).addEdge 2 0 ()).addEdge 2 2 ()

theorem triangle_lists_reachable : 0 ∈ triangle.nodes ∧
    (∃ enough,∀ fuel ≥ enough,∃ order,triangle.depthFirstOrder fuel 0 = some order ∧
      order.Nodup ∧ ∀ v,v ∈ order ↔ triangle.Reachable 0 v) ∧
    ∃ enough,∀ fuel ≥ enough,∃ order,triangle.breadthFirstOrder fuel 0 = some order ∧
      order.Nodup ∧ (∀ v,v ∈ order ↔ triangle.Reachable 0 v) ∧
      order.Pairwise fun v w => triangle.distance 0 v ≤ triangle.distance 0 w :=
  ⟨by decide,traversals_list_reachable triangle (by decide)⟩

example : triangle.breadthFirstOrder 3 0 = some [0,1,2] := by decide

end Memoir.DirectedGraph
