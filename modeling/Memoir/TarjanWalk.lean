import Memoir.DirectedGraph
import Mathlib.Algebra.Group.Nat.Defs
import Mathlib.Tactic.Tauto

/-! Tarjan's walk over a directed graph: the search for its strongly connected components with indices,
low links and a stack, and what holds while the edges of a node are followed and when it is left. -/
namespace Memoir.DirectedGraph

/-- The top of the stack is its head, and a low link that was not set is zero. -/
structure Tarjan (NodeType : Type) where
  components : NodeType → Option (List NodeType)
  index : Nat
  indices : NodeType → Option Nat
  lowlink : NodeType → Nat
  stack : List NodeType

variable {NodeType EdgeType : Type} [DecidableEq NodeType]

/-- What is popped, and what is left; an empty stack has no top. -/
def popThrough (n : NodeType) : List NodeType → Option (List NodeType × List NodeType)
  | [] => none
  | popNode :: stack =>
    if popNode = n then some ([popNode],stack)
    else (popThrough n stack).map fun popped => (popNode :: popped.1,popped.2)

namespace Tarjan

/-- The index is 32 bits wide. -/
def enter (n : NodeType) (s : Tarjan NodeType) : Tarjan NodeType :=
  { s with
    indices := Function.update s.indices n (some s.index)
    lowlink := Function.update s.lowlink n s.index
    index := (s.index + 1) % 2 ^ 32
    stack := n :: s.stack }

def lower (n : NodeType) (low : Nat) (s : Tarjan NodeType) : Tarjan NodeType :=
  { s with lowlink := Function.update s.lowlink n (min (s.lowlink n) low) }

def follow (recurse : NodeType → Tarjan NodeType → Option (Tarjan NodeType)) (n toNode : NodeType)
    (s : Tarjan NodeType) : Option (Tarjan NodeType) :=
  match s.indices toNode with
  | none => (recurse toNode s).map fun s => s.lower n (s.lowlink toNode)
  | some index => if toNode ∈ s.stack then some (s.lower n index) else some s

def followAll (recurse : NodeType → Tarjan NodeType → Option (Tarjan NodeType)) (n : NodeType) :
    List NodeType → Tarjan NodeType → Option (Tarjan NodeType)
  | [],s => some s
  | toNode :: rest,s => (follow recurse n toNode s).bind (followAll recurse n rest)

def leave (n : NodeType) (s : Tarjan NodeType) : Option (Tarjan NodeType) :=
  if some (s.lowlink n) = s.indices n then
    (popThrough n s.stack).map fun popped =>
      { s with
        components := Function.update s.components n
          (some (popped.1 ++ (s.components n).getD []))
        stack := popped.2 }
  else some s

end Tarjan

section
variable (graph : DirectedGraph NodeType EdgeType)

def tarjanSccHelper : Nat → NodeType → Tarjan NodeType → Option (Tarjan NodeType)
  | 0,_,_ => none
  | fuel + 1,n,s =>
    (graph.outgoing n).bind fun neighbors =>
      (Tarjan.followAll (tarjanSccHelper fuel) n neighbors (s.enter n)).bind (Tarjan.leave n)

def tarjanAll (fuel : Nat) : List NodeType → Tarjan NodeType → Option (Tarjan NodeType)
  | [],s => some s
  | node :: rest,s =>
    (if s.indices node = none then graph.tarjanSccHelper fuel node s else some s).bind
      (tarjanAll fuel rest)

/-- The helper is never in more calls at once than there are nodes. -/
def tarjanScc : Option (NodeType → Option (List NodeType)) :=
  (graph.tarjanAll graph.nodes.length graph.nodes
    ⟨fun _ => none,0,fun _ => none,fun _ => 0,[]⟩).map Tarjan.components

end

omit [DecidableEq NodeType] in
theorem reachable_leaves {graph : DirectedGraph NodeType EdgeType} (inside : NodeType → Prop)
    {u w : NodeType} (kept : ∀ u,inside u → ∀ w,graph.Edge u w → inside w) (start : inside u)
    (path : graph.Reachable u w) : inside w := by
  induction path with
  | refl => exact start
  | tail _ edge ih => exact kept _ ih _ edge

theorem popThrough_top {n : NodeType} {new : List NodeType} (fresh : n ∉ new) (rest : List NodeType) :
    popThrough n (new ++ n :: rest) = some (new ++ [n],rest) := by
  induction new with
  | nil => simp [popThrough]
  | cons v new ih =>
    obtain ⟨apart,fresh⟩ := not_or.mp (mt List.mem_cons.mpr fresh)
    rw [List.cons_append,popThrough,if_neg (Ne.symm apart),ih fresh]
    rfl

theorem idxOf_grown {entered entered' : List NodeType} (grows : entered <+: entered') {v : NodeType}
    (member : v ∈ entered) : entered'.idxOf v = entered.idxOf v := by
  obtain ⟨more,rfl⟩ := grows
  exact List.idxOf_append_of_mem member

section
variable (graph : DirectedGraph NodeType EdgeType)

def StronglyConnected (v w : NodeType) : Prop := graph.Reachable v w ∧ graph.Reachable w v

def Tarjan.Done (s : Tarjan NodeType) (v : NodeType) : Prop :=
  ∃ root scc,s.components root = some scc ∧ v ∈ scc

/-- The nodes that the walk has entered, in this order, are on the stack or in a component; `path`
has those that it has not left. -/
structure Invariant (path entered : List NodeType) (s : Tarjan NodeType) : Prop where
  distinct : entered.Nodup
  nodes : ∀ v ∈ entered,v ∈ graph.nodes
  indices : ∀ v,s.indices v = if v ∈ entered then some (entered.idxOf v) else none
  index : s.index = entered.length % 2 ^ 32
  sorted : s.stack.Pairwise fun x y => entered.idxOf y < entered.idxOf x
  path_stack : ∀ v ∈ path,v ∈ s.stack
  split : ∀ v,v ∈ entered ↔ v ∈ s.stack ∨ s.Done v
  apart : ∀ v ∈ s.stack,¬ s.Done v
  left : ∀ v ∈ entered,v ∉ path → ∀ w,graph.Edge v w → w ∈ entered
  down : ∀ x ∈ path,∀ y ∈ s.stack,entered.idxOf x ≤ entered.idxOf y → graph.Reachable x y
  up : ∀ y ∈ s.stack,∃ x ∈ path,entered.idxOf x ≤ entered.idxOf y ∧ graph.Reachable y x
  closed : ∀ v,s.Done v → ∀ w,graph.Edge v w → s.Done w
  exact : ∀ root scc,s.components root = some scc →
    scc.Nodup ∧ ∀ v,v ∈ scc ↔ graph.StronglyConnected root v
  first : ∀ root scc,s.components root = some scc →
    ∀ v ∈ scc,entered.idxOf root ≤ entered.idxOf v

/-- While the edges of `n` are followed: `followed` has the targets so far. -/
structure Following (path entered : List NodeType) (s : Tarjan NodeType) (n : NodeType)
    (followed entered' : List NodeType) (s' : Tarjan NodeType) : Prop where
  invariant : graph.Invariant (n :: path) entered' s'
  grows : entered ++ [n] <+: entered'
  above : ∃ new,s'.stack = new ++ n :: s.stack ∧
    ∀ u ∈ new,∀ w ∈ s.stack,graph.Edge u w → s'.lowlink n ≤ entered'.idxOf w
  targets : ∀ w ∈ followed,w ∈ entered' ∧ (w ∈ s.stack → s'.lowlink n ≤ entered'.idxOf w)
  low : s'.lowlink n ≤ entered'.idxOf n
  witness : ∃ y ∈ s'.stack,s'.lowlink n = entered'.idxOf y ∧ graph.Reachable n y
  kept : ∀ v ∈ entered,s'.lowlink v = s.lowlink v

/-- When `n` is left: it has been popped, or its low link is that of a node below it. -/
structure Left (path entered : List NodeType) (s : Tarjan NodeType) (n : NodeType)
    (entered' : List NodeType) (s' : Tarjan NodeType) : Prop where
  invariant : graph.Invariant path entered' s'
  grows : entered ++ [n] <+: entered'
  above : ∃ new,s'.stack = new ++ s.stack ∧
    (∀ u ∈ new,∀ w ∈ s.stack,graph.Edge u w → s'.lowlink n ≤ entered'.idxOf w) ∧
    (new = [] ∧ s'.lowlink n = entered'.idxOf n ∨
      ∃ y ∈ s.stack,s'.lowlink n = entered'.idxOf y ∧ graph.Reachable n y)
  kept : ∀ v ∈ entered,s'.lowlink v = s.lowlink v

end

variable {graph : DirectedGraph NodeType EdgeType} {path entered entered' followed : List NodeType}
  {s s' : Tarjan NodeType} {n m : NodeType}

theorem Invariant.lower (invariant : graph.Invariant path entered s) (n : NodeType) (low : Nat) :
    graph.Invariant path entered (s.lower n low) :=
  ⟨invariant.distinct,invariant.nodes,invariant.indices,invariant.index,invariant.sorted,
    invariant.path_stack,invariant.split,invariant.apart,invariant.left,invariant.down,invariant.up,
    invariant.closed,invariant.exact,invariant.first⟩

theorem Invariant.stack_entered (invariant : graph.Invariant path entered s) {v : NodeType}
    (member : v ∈ s.stack) : v ∈ entered := (invariant.split v).mpr (.inl member)

theorem Invariant.done_entered (invariant : graph.Invariant path entered s) {v : NodeType}
    (done : s.Done v) : v ∈ entered := (invariant.split v).mpr (.inr done)

/-- The index of a node that is entered has not wrapped around. -/
theorem Invariant.index_eq (invariant : graph.Invariant path entered s)
    (small : graph.nodes.length ≤ 2 ^ 32) (member : n ∈ graph.nodes) (new : n ∉ entered) :
    s.index = entered.length := by
  have distinct : (n :: entered).Nodup := List.nodup_cons.mpr ⟨new,invariant.distinct⟩
  have nodes : n :: entered ⊆ graph.nodes := List.cons_subset.mpr ⟨member,invariant.nodes⟩
  have bound := (List.subperm_of_subset distinct nodes).length_le
  rw [List.length_cons] at bound
  rw [invariant.index]
  exact Nat.mod_eq_of_lt (by omega)

theorem idxOf_push (new : n ∉ entered) : (entered ++ [n]).idxOf n = entered.length := by
  rw [List.idxOf_append_of_notMem new,List.idxOf_cons_self,Nat.add_zero]

theorem Invariant.enter (invariant : graph.Invariant path entered s)
    (small : graph.nodes.length ≤ 2 ^ 32) (member : n ∈ graph.nodes) (new : n ∉ entered)
    (reaches : ∀ x ∈ path,graph.Reachable x n) :
    graph.Invariant (n :: path) (entered ++ [n]) (s.enter n) := by
  have index := invariant.index_eq small member new
  have old : ∀ {v},v ∈ entered → (entered ++ [n]).idxOf v = entered.idxOf v := fun there =>
    List.idxOf_append_of_mem there
  have below : ∀ {v},v ∈ entered → entered.idxOf v < entered.length := fun there =>
    List.idxOf_lt_length_of_mem there
  have last := idxOf_push new
  have root_entered : ∀ {root scc},s.components root = some scc → root ∈ entered := by
    intro root scc found
    apply invariant.done_entered
    exact ⟨root,scc,found,((invariant.exact root scc found).2 root).mpr ⟨.refl,.refl⟩⟩
  refine ⟨nodup_push new invariant.distinct,?_,?_,?_,?_,?_,?_,?_,?_,?_,?_,invariant.closed,
    invariant.exact,?_⟩
  · intro v there
    rcases List.mem_append.mp there with there | there
    · exact invariant.nodes v there
    · obtain rfl := List.mem_singleton.mp there
      exact member
  · intro v
    change Function.update s.indices n (some s.index) v = _
    by_cases same : v = n
    · subst same
      rw [Function.update_self,if_pos (List.mem_append_right _ List.mem_cons_self),last,index]
    · rw [Function.update_of_ne same,invariant.indices]
      by_cases there : v ∈ entered
      · rw [if_pos there,if_pos (List.mem_append_left _ there),old there]
      · have missing : v ∉ entered ++ [n] := by simp [there,same]
        rw [if_neg there,if_neg missing]
  · change (s.index + 1) % 2 ^ 32 = _
    rw [index,List.length_append,List.length_singleton]
  · apply List.pairwise_cons.mpr
    constructor
    · intro y there
      rw [last,old (invariant.stack_entered there)]
      exact below (invariant.stack_entered there)
    · apply invariant.sorted.imp_of_mem
      intro x y there there' less
      rwa [old (invariant.stack_entered there),old (invariant.stack_entered there')]
  · intro v there
    rcases List.mem_cons.mp there with rfl | there
    · exact List.mem_cons_self
    · exact List.mem_cons_of_mem n (invariant.path_stack v there)
  · intro v
    change _ ↔ v ∈ n :: s.stack ∨ s.Done v
    rw [List.mem_append,List.mem_singleton,List.mem_cons,invariant.split]
    tauto
  · intro v there
    rcases List.mem_cons.mp there with rfl | there
    · exact fun done => new (invariant.done_entered done)
    · exact invariant.apart v there
  · intro v there outside w edge
    obtain ⟨apart,outside⟩ := not_or.mp (mt List.mem_cons.mpr outside)
    rcases List.mem_append.mp there with there | there
    · exact List.mem_append_left _ (invariant.left v there outside w edge)
    · exact absurd (List.mem_singleton.mp there) apart
  · intro x there y there' order
    rcases List.mem_cons.mp there' with rfl | stacked
    · rcases List.mem_cons.mp there with rfl | there
      · exact .refl
      · exact reaches x there
    · have before := below (invariant.stack_entered stacked)
      rw [old (invariant.stack_entered stacked)] at order
      rcases List.mem_cons.mp there with rfl | there
      · omega
      · rw [old (invariant.stack_entered (invariant.path_stack x there))] at order
        exact invariant.down x there y stacked order
  · intro y there
    rcases List.mem_cons.mp there with rfl | there
    · exact ⟨y,List.mem_cons_self,Nat.le_refl _,.refl⟩
    · obtain ⟨x,there',order,reach⟩ := invariant.up y there
      refine ⟨x,List.mem_cons_of_mem n there',?_,reach⟩
      rwa [old (invariant.stack_entered there),old (invariant.stack_entered (invariant.path_stack x there'))]
  · intro root scc found v there
    rw [old (root_entered found),old (invariant.done_entered ⟨root,scc,found,there⟩)]
    exact invariant.first root scc found v there

theorem Invariant.following (invariant : graph.Invariant path entered s)
    (small : graph.nodes.length ≤ 2 ^ 32) (member : n ∈ graph.nodes) (new : n ∉ entered)
    (reaches : ∀ x ∈ path,graph.Reachable x n) :
    graph.Following path entered s n [] (entered ++ [n]) (s.enter n) := by
  have index := invariant.index_eq small member new
  have low : (s.enter n).lowlink n = (entered ++ [n]).idxOf n := by
    change Function.update s.lowlink n s.index n = _
    rw [Function.update_self,idxOf_push new,index]
  refine ⟨invariant.enter small member new reaches,List.prefix_refl _,⟨[],rfl,by simp⟩,by simp,
    Nat.le_of_eq low,⟨n,List.mem_cons_self,low,.refl⟩,?_⟩
  intro v there
  change Function.update s.lowlink n s.index v = _
  apply Function.update_of_ne
  rintro rfl
  exact new there

theorem idxOf_new (grows : entered ++ [n] <+: entered') (new : n ∉ entered) :
    entered'.idxOf n = entered.length := by
  rw [idxOf_grown grows (List.mem_append_right _ List.mem_cons_self),idxOf_push new]

section
variable (following : graph.Following path entered s n followed entered' s')

include following

theorem Following.entered_mem {v : NodeType} (member : v ∈ entered) : v ∈ entered' :=
  following.grows.subset (List.mem_append_left _ member)

theorem Following.entered_self : n ∈ entered' :=
  following.grows.subset (List.mem_append_right _ List.mem_cons_self)

theorem Following.fresh : n ∉ entered := by
  have distinct := following.invariant.distinct.sublist following.grows.sublist
  intro there
  exact (List.nodup_append.mp distinct).2.2 n there n List.mem_cons_self rfl

theorem Following.stack_mem {v : NodeType} (member : v ∈ s.stack) : v ∈ s'.stack := by
  obtain ⟨new,stack,_⟩ := following.above
  rw [stack]
  exact List.mem_append_right _ (List.mem_cons_of_mem n member)

theorem Following.self_mem : n ∈ s'.stack := following.invariant.path_stack n List.mem_cons_self

/-- The low link is lowered to a node on the stack that `n` reaches. -/
theorem Following.lowered {y : NodeType} (stacked : y ∈ s'.stack) (reach : graph.Reachable n y) :
    graph.Following path entered s n followed entered' (s'.lower n (entered'.idxOf y)) ∧
      (s'.lower n (entered'.idxOf y)).lowlink n ≤ entered'.idxOf y := by
  have low : (s'.lower n (entered'.idxOf y)).lowlink n = min (s'.lowlink n) (entered'.idxOf y) :=
    Function.update_self n _ _
  have less : (s'.lower n (entered'.idxOf y)).lowlink n ≤ s'.lowlink n :=
    low ▸ Nat.min_le_left _ _
  obtain ⟨new,stack,bound⟩ := following.above
  refine ⟨⟨following.invariant.lower n _,following.grows,
    ⟨new,stack,fun u there w there' edge => less.trans (bound u there w there' edge)⟩,?_,
    less.trans following.low,?_,?_⟩,low ▸ Nat.min_le_right _ _⟩
  · intro w there
    obtain ⟨member,bound⟩ := following.targets w there
    exact ⟨member,fun stacked => less.trans (bound stacked)⟩
  · rcases Nat.le_total (s'.lowlink n) (entered'.idxOf y) with order | order
    · obtain ⟨z,there,same,reach'⟩ := following.witness
      exact ⟨z,there,by rw [low,Nat.min_eq_left order,same],reach'⟩
    · exact ⟨y,stacked,by rw [low,Nat.min_eq_right order],reach⟩
  · intro v there
    have apart : v ≠ n := by
      rintro rfl
      exact following.fresh there
    exact (Function.update_of_ne apart _ _).trans (following.kept v there)

theorem Following.add (member : m ∈ entered')
    (bound : m ∈ s.stack → s'.lowlink n ≤ entered'.idxOf m) :
    graph.Following path entered s n (m :: followed) entered' s' := by
  refine ⟨following.invariant,following.grows,following.above,?_,following.low,following.witness,
    following.kept⟩
  intro w there
  rcases List.mem_cons.mp there with rfl | there
  · exact ⟨member,bound⟩
  · exact following.targets w there

/-- After the call for a target that was not entered. -/
theorem Following.returned {entered'' : List NodeType} {s'' : Tarjan NodeType}
    (left : graph.Left (n :: path) entered' s' m entered'' s'') (edge : graph.Edge n m)
    (new : m ∉ entered') :
    graph.Following path entered s n (m :: followed) entered'' (s''.lower n (s''.lowlink m)) := by
  have grows : entered' <+: entered'' := (List.prefix_append _ _).trans left.grows
  have same : ∀ {v},v ∈ entered' → entered''.idxOf v = entered'.idxOf v := idxOf_grown grows
  have self := following.entered_self
  have low : (s''.lower n (s''.lowlink m)).lowlink n = min (s'.lowlink n) (s''.lowlink m) :=
    (Function.update_self n _ _).trans (by rw [left.kept n self])
  have less : (s''.lower n (s''.lowlink m)).lowlink n ≤ s'.lowlink n := low ▸ Nat.min_le_left _ _
  have less' : (s''.lower n (s''.lowlink m)).lowlink n ≤ s''.lowlink m := low ▸ Nat.min_le_right _ _
  have listed : ∀ {w},w ∈ s.stack → w ∈ entered' := fun there =>
    following.invariant.stack_entered (following.stack_mem there)
  obtain ⟨above,stack,bound⟩ := following.above
  obtain ⟨above',stack',bound',lowest⟩ := left.above
  refine ⟨left.invariant.lower n _,following.grows.trans grows,
    ⟨above' ++ above,?_,?_⟩,?_,?_,?_,?_⟩
  · change s''.stack = _
    rw [stack',stack,List.append_assoc]
  · intro u there w there' follows
    rcases List.mem_append.mp there with there | there
    · exact less'.trans (bound' u there w (following.stack_mem there') follows)
    · rw [same (listed there')]
      exact less.trans (bound u there w there' follows)
  · intro w there
    rcases List.mem_cons.mp there with rfl | there
    · exact ⟨left.grows.subset (List.mem_append_right _ List.mem_cons_self),
        fun stacked => absurd (listed stacked) new⟩
    · obtain ⟨member,bound⟩ := following.targets w there
      refine ⟨grows.subset member,fun stacked => ?_⟩
      rw [same member]
      exact less.trans (bound stacked)
  · rw [same self]
    exact less.trans following.low
  · obtain ⟨y,there,lowest',reach⟩ := following.witness
    have keep : s'.lowlink n ≤ s''.lowlink m →
        ∃ y ∈ s''.stack,(s''.lower n (s''.lowlink m)).lowlink n = entered''.idxOf y ∧
          graph.Reachable n y := by
      intro order
      refine ⟨y,stack' ▸ List.mem_append_right _ there,?_,reach⟩
      rw [low,Nat.min_eq_left order,same (following.invariant.stack_entered there),lowest']
    rcases lowest with ⟨_,popped⟩ | ⟨z,there',stays,reach'⟩
    · apply keep
      have below := List.idxOf_lt_length_of_mem self
      have last := idxOf_new left.grows new
      have lows := following.low
      omega
    · rcases Nat.le_total (s'.lowlink n) (s''.lowlink m) with order | order
      · exact keep order
      · refine ⟨z,stack' ▸ List.mem_append_right _ there',?_,.head edge reach'⟩
        rw [low,Nat.min_eq_right order,stays]
  · intro v there
    have apart : v ≠ n := by
      rintro rfl
      exact following.fresh there
    have kept := left.kept v (following.entered_mem there)
    exact (Function.update_of_ne apart _ _).trans (kept.trans (following.kept v there))

end

theorem done_pop (absent : s.components n = none) (rest scc : List NodeType) (v : NodeType) :
    Tarjan.Done { s with components := Function.update s.components n (some scc), stack := rest } v ↔
      v ∈ scc ∨ s.Done v := by
  constructor
  · rintro ⟨root,nodes,found,member⟩
    change Function.update s.components n (some scc) root = some nodes at found
    by_cases same : root = n
    · subst same
      rw [Function.update_self] at found
      obtain rfl := Option.some.inj found
      exact .inl member
    · rw [Function.update_of_ne same] at found
      exact .inr ⟨root,nodes,found,member⟩
  · rintro (member | ⟨root,nodes,found,member⟩)
    · exact ⟨n,scc,Function.update_self n _ _,member⟩
    · refine ⟨root,nodes,?_,member⟩
      have same : root ≠ n := by
        rintro rfl
        rw [absent] at found
        exact absurd found (by simp)
      exact (Function.update_of_ne same _ _).trans found

section
variable (invariant : graph.Invariant path entered s)
  (following : graph.Following path entered s n followed entered' s')
  (all : ∀ m,graph.Edge n m → m ∈ followed) {new : List NodeType}
  (stack : s'.stack = new ++ n :: s.stack)

include following stack

theorem Following.order : (∀ v ∈ new,entered'.idxOf n < entered'.idxOf v) ∧
    ∀ v ∈ s.stack,entered'.idxOf v < entered'.idxOf n := by
  have sorted := following.invariant.sorted
  rw [stack,List.pairwise_append,List.pairwise_cons] at sorted
  exact ⟨fun v there => sorted.2.2 v there n List.mem_cons_self,sorted.2.1.1⟩

include invariant all

/-- No edge leads from `n` and the nodes above it to one below when the low link is that of `n`. -/
theorem Following.inside
    (bound : ∀ u ∈ new,∀ w ∈ s.stack,graph.Edge u w → s'.lowlink n ≤ entered'.idxOf w)
    (root : s'.lowlink n = entered'.idxOf n) {u : NodeType}
    (member : u ∈ new ++ [n] ∨ s'.Done u) {w : NodeType} (edge : graph.Edge u w) :
    w ∈ new ++ [n] ∨ s'.Done w := by
  obtain ⟨above,below⟩ := following.order stack
  rcases member with member | done
  · have reached : w ∈ entered' ∧ (w ∈ s.stack → s'.lowlink n ≤ entered'.idxOf w) := by
      rcases List.mem_append.mp member with there | same
      · have stacked : u ∈ s'.stack := stack ▸ List.mem_append_left _ there
        have outside : u ∉ n :: path := by
          intro inside
          have higher := above u there
          rcases List.mem_cons.mp inside with rfl | inside
          · exact Nat.lt_irrefl _ higher
          · have lower := below u (invariant.path_stack u inside)
            omega
        exact ⟨following.invariant.left u (following.invariant.stack_entered stacked) outside w edge,
          fun there' => bound u there w there' edge⟩
      · obtain rfl := List.mem_singleton.mp same
        exact following.targets w (all w edge)
    rcases (following.invariant.split w).mp reached.1 with stacked | done
    · rw [stack] at stacked
      rcases List.mem_append.mp stacked with there | there
      · exact .inl (List.mem_append_left _ there)
      · rcases List.mem_cons.mp there with rfl | there
        · exact .inl (List.mem_append_right _ List.mem_cons_self)
        · have lower := below w there
          have least := reached.2 there
          omega
    · exact .inr done
  · exact .inr (following.invariant.closed u done w edge)

/-- The nodes from `n` up are the strongly connected component of `n`. -/
theorem Following.component
    (bound : ∀ u ∈ new,∀ w ∈ s.stack,graph.Edge u w → s'.lowlink n ≤ entered'.idxOf w)
    (root : s'.lowlink n = entered'.idxOf n) (v : NodeType) :
    v ∈ new ++ [n] ↔ graph.StronglyConnected n v := by
  obtain ⟨above,below⟩ := following.order stack
  have inside {u w : NodeType} (start : u ∈ new ++ [n] ∨ s'.Done u) (path : graph.Reachable u w) :
      w ∈ new ++ [n] ∨ s'.Done w :=
    reachable_leaves (fun u => u ∈ new ++ [n] ∨ s'.Done u)
      (fun _ member _ edge => following.inside invariant all stack bound root member edge) start path
  have self : n ∈ new ++ [n] := List.mem_append_right _ List.mem_cons_self
  have stacked : ∀ {v},v ∈ new ++ [n] → v ∈ s'.stack := by
    intro v member
    rw [stack]
    rcases List.mem_append.mp member with there | there
    · exact List.mem_append_left _ there
    · exact List.mem_append_right _ (List.mem_singleton.mp there ▸ List.mem_cons_self)
  constructor
  · intro member
    have order : entered'.idxOf n ≤ entered'.idxOf v := by
      rcases List.mem_append.mp member with there | there
      · exact Nat.le_of_lt (above v there)
      · exact Nat.le_of_eq (List.mem_singleton.mp there ▸ rfl)
    refine ⟨following.invariant.down n List.mem_cons_self v (stacked member) order,?_⟩
    obtain ⟨x,member',_,reach⟩ := following.invariant.up v (stacked member)
    rcases List.mem_cons.mp member' with rfl | member'
    · exact reach
    · have low := invariant.path_stack x member'
      rcases inside (.inl member) reach with there | done
      · have lower := below x low
        rcases List.mem_append.mp there with there | there
        · have higher := above x there
          omega
        · obtain rfl := List.mem_singleton.mp there
          omega
      · exact absurd done (following.invariant.apart x (following.stack_mem low))
  · rintro ⟨reach,back⟩
    rcases inside (.inl self) reach with there | done
    · exact there
    · have done' : s'.Done n :=
        reachable_leaves s'.Done following.invariant.closed done back
      exact absurd done' (following.invariant.apart n following.self_mem)

theorem Following.popped
    (bound : ∀ u ∈ new,∀ w ∈ s.stack,graph.Edge u w → s'.lowlink n ≤ entered'.idxOf w)
    (root : s'.lowlink n = entered'.idxOf n) :
    s'.components n = none ∧ graph.Invariant path entered'
      { s' with
        components := Function.update s'.components n (some (new ++ [n]))
        stack := s.stack } := by
  obtain ⟨above,below⟩ := following.order stack
  have inner := following.invariant
  have component := following.component invariant all stack bound root
  have absent : s'.components n = none := by
    rcases found : s'.components n with _ | scc
    · rfl
    · have done : s'.Done n := ⟨n,scc,found,((inner.exact n scc found).2 n).mpr ⟨.refl,.refl⟩⟩
      exact absurd done (inner.apart n following.self_mem)
  have done := done_pop absent s.stack (new ++ [n])
  have sorted := inner.sorted
  rw [stack] at sorted
  have distinct : (new ++ n :: s.stack).Nodup := by
    apply sorted.imp
    rintro x _ less rfl
    exact Nat.lt_irrefl _ less
  have old {v : NodeType} (member : v ∈ s.stack) : v ∈ s'.stack := following.stack_mem member
  refine ⟨absent,inner.distinct,inner.nodes,inner.indices,inner.index,
    (List.pairwise_cons.mp (List.pairwise_append.mp sorted).2.1).2,invariant.path_stack,
    ?_,?_,?_,?_,?_,?_,?_,?_⟩
  · intro v
    rw [done,inner.split,stack]
    simp only [List.mem_append,List.mem_cons,List.not_mem_nil,or_false]
    tauto
  · intro v member finished
    rcases (done v).mp finished with there | finished
    · have lower := below v member
      rcases List.mem_append.mp there with there | there
      · have higher := above v there
        omega
      · obtain rfl := List.mem_singleton.mp there
        omega
    · exact inner.apart v (old member) finished
  · intro v member outside w edge
    by_cases same : v = n
    · subst same
      exact (following.targets w (all w edge)).1
    · exact inner.left v member (by simp [same,outside]) w edge
  · intro x member y there order
    exact inner.down x (List.mem_cons_of_mem n member) y (old there) order
  · intro y there
    obtain ⟨x,member,order,reach⟩ := inner.up y (old there)
    rcases List.mem_cons.mp member with rfl | member
    · have lower := below y there
      omega
    · exact ⟨x,member,order,reach⟩
  · intro v finished w edge
    apply (done w).mpr
    exact following.inside invariant all stack bound root ((done v).mp finished) edge
  · intro key scc found
    change Function.update s'.components n (some (new ++ [n])) key = some scc at found
    by_cases same : key = n
    · subst same
      rw [Function.update_self] at found
      obtain rfl := Option.some.inj found
      refine ⟨?_,component⟩
      have prefixed : List.Sublist (new ++ [key]) (new ++ key :: s.stack) :=
        (List.Sublist.refl new).append (List.cons_sublist_cons.mpr (List.nil_sublist _))
      exact distinct.sublist prefixed
    · rw [Function.update_of_ne same] at found
      exact inner.exact key scc found
  · intro key scc found v member
    change Function.update s'.components n (some (new ++ [n])) key = some scc at found
    by_cases same : key = n
    · subst same
      rw [Function.update_self] at found
      obtain rfl := Option.some.inj found
      rcases List.mem_append.mp member with there | there
      · exact Nat.le_of_lt (above v there)
      · exact Nat.le_of_eq (List.mem_singleton.mp there ▸ rfl)
    · rw [Function.update_of_ne same] at found
      exact inner.first key scc found v member

omit invariant in
/-- The node stays on the stack and reaches one below it. -/
theorem Following.stays (below : s'.lowlink n ≠ entered'.idxOf n) :
    graph.Invariant path entered' s' ∧
      ∃ y ∈ s.stack,s'.lowlink n = entered'.idxOf y ∧ graph.Reachable n y := by
  have inner := following.invariant
  obtain ⟨above,lower⟩ := following.order stack
  have less : s'.lowlink n < entered'.idxOf n := Nat.lt_of_le_of_ne following.low below
  obtain ⟨y,member,same,reach⟩ := following.witness
  have deep : y ∈ s.stack := by
    rw [stack] at member
    rcases List.mem_append.mp member with there | there
    · have higher := above y there
      omega
    · rcases List.mem_cons.mp there with rfl | there
      · exact absurd same below
      · exact there
  refine ⟨⟨inner.distinct,inner.nodes,inner.indices,inner.index,inner.sorted,
    fun v there => inner.path_stack v (List.mem_cons_of_mem n there),inner.split,inner.apart,?_,
    fun x there => inner.down x (List.mem_cons_of_mem n there),?_,inner.closed,inner.exact,
    inner.first⟩,y,deep,same,reach⟩
  · intro v member outside w edge
    by_cases same : v = n
    · subst same
      exact (following.targets w (all w edge)).1
    · exact inner.left v member (by simp [same,outside]) w edge
  · intro z there
    obtain ⟨x,there',order,reach'⟩ := inner.up z there
    rcases List.mem_cons.mp there' with rfl | there'
    · obtain ⟨x',member',order',reach''⟩ := inner.up y (following.stack_mem deep)
      rcases List.mem_cons.mp member' with rfl | member'
      · omega
      · exact ⟨x',member',by omega,reach'.trans (reach.trans reach'')⟩
    · exact ⟨x,there',order,reach'⟩

end

theorem Following.leave (invariant : graph.Invariant path entered s)
    (following : graph.Following path entered s n followed entered' s')
    (all : ∀ m,graph.Edge n m → m ∈ followed) :
    ∃ s'',Tarjan.leave n s' = some s'' ∧ graph.Left path entered s n entered' s'' := by
  obtain ⟨new,stack,bound⟩ := following.above
  have index : s'.indices n = some (entered'.idxOf n) := by
    rw [following.invariant.indices,if_pos following.entered_self]
  unfold Tarjan.leave
  rw [index]
  split_ifs with root
  · have root := Option.some.inj root
    obtain ⟨absent,invariant'⟩ := following.popped invariant all stack bound root
    have fresh : n ∉ new := by
      intro there
      exact Nat.lt_irrefl _ ((following.order stack).1 n there)
    rw [stack,popThrough_top fresh,Option.map_some,absent,Option.getD_none,List.append_nil]
    exact ⟨_,rfl,invariant',following.grows,⟨[],rfl,by simp,.inl ⟨rfl,root⟩⟩,following.kept⟩
  · obtain ⟨invariant',y,deep,same,reach⟩ :=
      following.stays all stack fun same => root (congrArg some same)
    refine ⟨s',rfl,invariant',following.grows,⟨new ++ [n],?_,?_,.inr ⟨y,deep,same,reach⟩⟩,
      following.kept⟩
    · rw [stack,List.append_assoc,List.singleton_append]
    · intro u there w there' edge
      rcases List.mem_append.mp there with there | there
      · exact bound u there w there' edge
      · obtain rfl := List.mem_singleton.mp there
        exact (following.targets w (all w edge)).2 there'

end Memoir.DirectedGraph
