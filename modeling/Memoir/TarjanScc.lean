import Memoir.TarjanWalk
import Memoir.Traversals

/-! The components that Tarjan's walk finds are the strongly connected ones, as long as the nodes can be
numbered with 32 bits. -/
namespace Memoir.DirectedGraph

variable {NodeType EdgeType : Type} [DecidableEq NodeType]
  {graph : DirectedGraph NodeType EdgeType} {path entered entered' followed : List NodeType}
  {s s' : Tarjan NodeType} {n : NodeType}

section
variable (graph : DirectedGraph NodeType EdgeType)

def enterFrom : Nat → NodeType → List NodeType → List NodeType
  | 0,_,entered => entered
  | fuel + 1,n,entered =>
    (graph.successors n).foldl (fun entered m => if m ∈ entered then entered else enterFrom fuel m entered)
      (entered ++ [n])

def enterAll (fuel : Nat) (nodes entered : List NodeType) : List NodeType :=
  nodes.foldl (fun entered n => if n ∈ entered then entered else graph.enterFrom fuel n entered) entered

def walkOrder : List NodeType := graph.enterAll graph.nodes.length graph.nodes []

/-- What is asked of the map of components: the values are disjoint and cover the nodes, each is one
strongly connected component, and its key is a member. -/
structure AreComponents (components : NodeType → Option (List NodeType)) : Prop where
  disjoint : ∀ root scc root' scc' v,components root = some scc → components root' = some scc' →
    v ∈ scc → v ∈ scc' → root = root'
  cover : ∀ v,v ∈ graph.nodes ↔ ∃ root scc,components root = some scc ∧ v ∈ scc
  exact : ∀ root scc,components root = some scc → root ∈ scc ∧ scc.Nodup ∧
    ∀ v ∈ scc,∀ w,w ∈ scc ↔ graph.StronglyConnected v w

end

omit [DecidableEq NodeType] in
theorem StronglyConnected.symm {v w : NodeType} (connected : graph.StronglyConnected v w) :
    graph.StronglyConnected w v := ⟨connected.2,connected.1⟩

omit [DecidableEq NodeType] in
theorem StronglyConnected.trans {u v w : NodeType} (first : graph.StronglyConnected u v)
    (second : graph.StronglyConnected v w) : graph.StronglyConnected u w :=
  ⟨first.1.trans second.1,second.2.trans first.2⟩

section
variable {fuel : Nat}

theorem followAll_following
    (helper : ∀ {path entered s m},graph.Invariant path entered s → m ∈ graph.nodes → m ∉ entered →
      (∀ x ∈ path,graph.Reachable x m) → graph.nodes.length ≤ fuel + entered.length →
      ∃ s',graph.tarjanSccHelper fuel m s = some s' ∧
        graph.Left path entered s m (graph.enterFrom fuel m entered) s')
    (rest : List NodeType) (edges : ∀ m ∈ rest,graph.Edge n m)
    (reaches : ∀ x ∈ path,graph.Reachable x n)
    (enough : graph.nodes.length ≤ fuel + (entered.length + 1))
    (following : graph.Following path entered s n followed entered' s') :
    ∃ s'',Tarjan.followAll (graph.tarjanSccHelper fuel) n rest s' = some s'' ∧
      graph.Following path entered s n (rest.reverse ++ followed)
        (graph.enterAll fuel rest entered') s'' := by
  induction rest generalizing followed entered' s' with
  | nil => exact ⟨s',rfl,following⟩
  | cons m rest ih =>
    have edge : graph.Edge n m := edges m List.mem_cons_self
    have edges' : ∀ m ∈ rest,graph.Edge n m := fun m there => edges m (List.mem_cons_of_mem _ there)
    have step : ∃ s'',Tarjan.follow (graph.tarjanSccHelper fuel) n m s' = some s'' ∧
        graph.Following path entered s n (m :: followed)
          (if m ∈ entered' then entered' else graph.enterFrom fuel m entered') s'' := by
      unfold Tarjan.follow
      by_cases old : m ∈ entered'
      · rw [following.invariant.indices,if_pos old,if_pos old]
        by_cases stacked : m ∈ s'.stack
        · obtain ⟨lowered,bound⟩ := following.lowered stacked (.single edge)
          exact ⟨_,if_pos stacked,lowered.add old fun _ => bound⟩
        · exact ⟨s',if_neg stacked,
            following.add old fun there => absurd (following.stack_mem there) stacked⟩
      · rw [following.invariant.indices,if_neg old,if_neg old]
        have reaches' : ∀ x ∈ n :: path,graph.Reachable x m := by
          intro x there
          rcases List.mem_cons.mp there with rfl | there
          · exact .single edge
          · exact (reaches x there).tail edge
        have longer := following.grows.length_le
        rw [List.length_append,List.length_singleton] at longer
        obtain ⟨s'',ran,left⟩ := helper following.invariant (target_mem edge) old reaches' (by omega)
        exact ⟨s''.lower n (s''.lowlink m),by rw [ran]; rfl,following.returned left edge old⟩
    obtain ⟨between,ran,following'⟩ := step
    obtain ⟨s'',ran',following''⟩ := ih edges' following'
    refine ⟨s'',?_,?_⟩
    · rw [Tarjan.followAll,ran,Option.bind_some,ran']
    · rw [List.reverse_cons,List.append_assoc,List.singleton_append]
      exact following''

variable (small : graph.nodes.length ≤ 2 ^ 32)

include small

theorem tarjanSccHelper_left (invariant : graph.Invariant path entered s) (member : n ∈ graph.nodes)
    (new : n ∉ entered) (reaches : ∀ x ∈ path,graph.Reachable x n)
    (enough : graph.nodes.length ≤ fuel + entered.length) :
    ∃ s',graph.tarjanSccHelper fuel n s = some s' ∧
      graph.Left path entered s n (graph.enterFrom fuel n entered) s' := by
  induction fuel generalizing path entered s n with
  | zero =>
    have distinct : (n :: entered).Nodup := List.nodup_cons.mpr ⟨new,invariant.distinct⟩
    have nodes : n :: entered ⊆ graph.nodes := List.cons_subset.mpr ⟨member,invariant.nodes⟩
    have bound := (List.subperm_of_subset distinct nodes).length_le
    rw [List.length_cons] at bound
    omega
  | succ fuel ih =>
    obtain ⟨s',ran,following⟩ := followAll_following ih (graph.successors n)
      (fun _ edge => edge) reaches (by omega) (invariant.following small member new reaches)
    obtain ⟨s'',ran',left⟩ := following.leave invariant fun m edge => by
      rw [List.append_nil,List.mem_reverse]
      exact edge
    refine ⟨s'',?_,left⟩
    rw [tarjanSccHelper,outgoing_eq member,Option.bind_some,ran,Option.bind_some,ran']

theorem tarjanAll_invariant {rest : List NodeType} (members : ∀ n ∈ rest,n ∈ graph.nodes)
    (enough : graph.nodes.length ≤ fuel) (invariant : graph.Invariant [] entered s) :
    ∃ s',graph.tarjanAll fuel rest s = some s' ∧
      graph.Invariant [] (graph.enterAll fuel rest entered) s' ∧
      entered ⊆ graph.enterAll fuel rest entered ∧ rest ⊆ graph.enterAll fuel rest entered := by
  induction rest generalizing entered s with
  | nil => exact ⟨s,rfl,invariant,List.Subset.refl _,List.nil_subset _⟩
  | cons n rest ih =>
    have step : ∃ s',(if s.indices n = none then graph.tarjanSccHelper fuel n s else some s) = some s' ∧
        graph.Invariant []
          (if n ∈ entered then entered else graph.enterFrom fuel n entered) s' ∧
        entered ++ [n] ⊆ if n ∈ entered then entered else graph.enterFrom fuel n entered := by
      rw [invariant.indices]
      by_cases old : n ∈ entered
      · rw [if_pos old,if_neg (Option.some_ne_none _),if_pos old]
        refine ⟨s,rfl,invariant,List.append_subset.mpr ⟨List.Subset.refl _,?_⟩⟩
        exact List.cons_subset.mpr ⟨old,List.nil_subset _⟩
      · rw [if_neg old,if_pos rfl,if_neg old]
        obtain ⟨s',ran,left⟩ := tarjanSccHelper_left small invariant (members n List.mem_cons_self) old
          (by simp) (Nat.le_add_right_of_le enough)
        exact ⟨s',ran,left.invariant,left.grows.subset⟩
    obtain ⟨between,ran,invariant',kept⟩ := step
    obtain ⟨s',ran',invariant'',kept',all⟩ :=
      ih (fun m there => members m (List.mem_cons_of_mem n there)) invariant'
    obtain ⟨kept,listed⟩ := List.append_subset.mp kept
    refine ⟨s',by rw [tarjanAll,ran,Option.bind_some,ran'],invariant'',List.Subset.trans kept kept',?_⟩
    exact List.cons_subset.mpr ⟨kept' (listed List.mem_cons_self),all⟩

/-- Besides, the key is the first node of its component that the walk enters. -/
theorem tarjanScc_spec : ∃ components,graph.tarjanScc = some components ∧
    graph.AreComponents components ∧ graph.nodes ⊆ graph.walkOrder ∧
      ∀ root scc,components root = some scc →
        ∀ v ∈ scc,graph.walkOrder.idxOf root ≤ graph.walkOrder.idxOf v := by
  have start : graph.Invariant [] [] ⟨fun _ => none,0,fun _ => none,fun _ => 0,[]⟩ := by
    refine ⟨List.nodup_nil,by simp,by simp,rfl,.nil,by simp,?_,by simp,by simp,by simp,by simp,?_,
      by simp,by simp⟩
    · intro v
      simp [Tarjan.Done]
    · rintro v ⟨_,_,found,_⟩
      exact absurd found (by simp)
  obtain ⟨s,ran,invariant,_,listed⟩ :=
    tarjanAll_invariant small (fun n there => there) (Nat.le_refl _) start
  have stack : s.stack = [] := by
    apply List.eq_nil_iff_forall_not_mem.mpr
    intro y there
    obtain ⟨x,member,_⟩ := invariant.up y there
    exact List.not_mem_nil member
  have done : ∀ v,v ∈ graph.walkOrder ↔ s.Done v := by
    intro v
    rw [walkOrder,invariant.split,stack]
    simp only [List.not_mem_nil,false_or]
  have self : ∀ {root scc},s.components root = some scc → root ∈ scc := fun found =>
    ((invariant.exact _ _ found).2 _).mpr ⟨.refl,.refl⟩
  refine ⟨s.components,by rw [tarjanScc,ran]; rfl,⟨?_,?_,?_⟩,listed,invariant.first⟩
  · intro root scc root' scc' v found found' member member'
    have connected : graph.StronglyConnected root root' :=
      (((invariant.exact _ _ found).2 v).mp member).trans
        (((invariant.exact _ _ found').2 v).mp member').symm
    have low := invariant.first _ _ found root' (((invariant.exact _ _ found).2 root').mpr connected)
    have low' := invariant.first _ _ found' root
      (((invariant.exact _ _ found').2 root).mpr connected.symm)
    have entered : root ∈ graph.walkOrder := (done root).mpr ⟨root,scc,found,self found⟩
    exact (List.idxOf_inj entered).mp (Nat.le_antisymm low low')
  · intro v
    apply Iff.trans _ (done v)
    exact ⟨fun there => listed there,invariant.nodes v⟩
  · intro root scc found
    obtain ⟨distinct,exact⟩ := invariant.exact root scc found
    refine ⟨self found,distinct,fun v member w => (exact w).trans ?_⟩
    have connected := (exact v).mp member
    exact ⟨connected.symm.trans,connected.trans⟩

end

/-- For graphs whose nodes can be numbered with 32 bits. -/
theorem tarjanScc_components (graph : DirectedGraph NodeType EdgeType)
    (small : graph.nodes.length ≤ 2 ^ 32) :
    ∃ components,graph.tarjanScc = some components ∧ graph.AreComponents components := by
  obtain ⟨components,ran,are,_⟩ := tarjanScc_spec small
  exact ⟨components,ran,are⟩

theorem triangle_components : triangle.nodes.length ≤ 2 ^ 32 ∧
    ∃ components,triangle.tarjanScc = some components ∧ triangle.AreComponents components :=
  ⟨by decide,tarjanScc_components triangle (by decide)⟩

section LateCycle

/-- Only the last two nodes have edges, to each other. -/
def lateNeighbors (size v : Nat) : List Nat :=
  if v = size then [size + 1] else if v = size + 1 then [size] else []

theorem mem_lateNeighbors {size v w : Nat} :
    w ∈ lateNeighbors size v ↔ v = size ∧ w = size + 1 ∨ v = size + 1 ∧ w = size := by
  unfold lateNeighbors
  split_ifs with first second
  · simp [first]
  · simp [second]
  · simp [first,second]

theorem lateNeighbors_nodup (size v : Nat) : (lateNeighbors size v).Nodup := by
  unfold lateNeighbors
  split_ifs
  · exact List.nodup_singleton _
  · exact List.nodup_singleton _
  · exact List.nodup_nil

theorem lateNeighbors_map (size v : Nat) :
    ((lateNeighbors size v).map fun w => (w,())).map Prod.fst = lateNeighbors size v := by
  rw [List.map_map]
  exact List.map_id _

theorem lateNeighbors_ends (size v w : Nat)
    (member : w ∈ ((lateNeighbors size v).map fun w => (w,())).map Prod.fst) :
    v ∈ List.range (size + 2) ∧ w ∈ List.range (size + 2) := by
  rw [lateNeighbors_map,mem_lateNeighbors] at member
  rw [List.mem_range,List.mem_range]
  omega

theorem lateNeighbors_symm (size v w : Nat) : v ∈ lateNeighbors size w ↔
    w ∈ ((lateNeighbors size v).map fun w => (w,())).map Prod.fst := by
  rw [lateNeighbors_map,mem_lateNeighbors,mem_lateNeighbors]
  omega

def lateCycle (size : Nat) : DirectedGraph Nat Unit where
  nodes := List.range (size + 2)
  outNeighbors v := (lateNeighbors size v).map fun w => (w,())
  inNeighbors := lateNeighbors size
  nodup := List.nodup_range
  outNodup v := (lateNeighbors_map size v).symm ▸ lateNeighbors_nodup size v
  inNodup := lateNeighbors_nodup size
  ends := lateNeighbors_ends size
  mem_inNeighbors := lateNeighbors_symm size

theorem lateCycle_outgoing {size v : Nat} (bound : v < size + 2) :
    (lateCycle size).outgoing v = some (lateNeighbors size v) := by
  rw [outgoing_eq (List.mem_range.mpr bound)]
  exact congrArg some (lateNeighbors_map size v)

structure Before (k : Nat) (s : Tarjan Nat) : Prop where
  stack : s.stack = []
  index : s.index = k
  unvisited : ∀ v,k ≤ v → s.indices v = none
  components : ∀ root scc,s.components root = some scc → ∀ v ∈ scc,v < k

theorem getD_components {k : Nat} {s : Tarjan Nat} (before : Before k s) (root : Nat) :
    ∀ v ∈ (s.components root).getD [],v < k := by
  intro v member
  rcases found : s.components root with _ | scc
  · rw [found] at member
    exact absurd member List.not_mem_nil
  · rw [found] at member
    exact before.components root scc found v member

theorem Before.alone {size k : Nat} {s : Tarjan Nat} (before : Before k s) (bound : k < size)
    (narrow : size < 2 ^ 32) (fuel : Nat) :
    ∃ s',(lateCycle size).tarjanSccHelper (fuel + 1) k s = some s' ∧ Before (k + 1) s' := by
  have none : lateNeighbors size k = [] := by
    rw [lateNeighbors,if_neg (by omega),if_neg (by omega)]
  refine ⟨⟨Function.update s.components k (some ([k] ++ (s.components k).getD [])),k + 1,
    Function.update s.indices k (some k),Function.update s.lowlink k k,[]⟩,?_,rfl,rfl,?_,?_⟩
  · have wide : (k + 1) % 2 ^ 32 = k + 1 := Nat.mod_eq_of_lt (by omega)
    rw [tarjanSccHelper,lateCycle_outgoing (by omega),none]
    simp only [Tarjan.followAll,Tarjan.enter,Tarjan.leave,before.stack,before.index,popThrough,wide,
      Function.update_self,Option.bind_some,if_true,Option.map_some]
  · intro v order
    exact (Function.update_of_ne (by omega) _ _).trans (before.unvisited v (by omega))
  · intro root scc found v member
    change Function.update s.components k _ root = some scc at found
    by_cases same : root = k
    · subst same
      rw [Function.update_self] at found
      obtain rfl := Option.some.inj found
      rcases List.mem_append.mp member with there | there
      · obtain rfl := List.mem_singleton.mp there
        exact Nat.lt_succ_self v
      · exact Nat.lt_succ_of_lt (getD_components before root v there)
    · rw [Function.update_of_ne same] at found
      exact Nat.lt_succ_of_lt (before.components root scc found v member)

theorem tarjanAll_append {graph : DirectedGraph NodeType EdgeType} (fuel : Nat)
    (first rest : List NodeType) (s : Tarjan NodeType) :
    graph.tarjanAll fuel (first ++ rest) s =
      (graph.tarjanAll fuel first s).bind (graph.tarjanAll fuel rest) := by
  induction first generalizing s with
  | nil => rfl
  | cons n first ih =>
    rw [List.cons_append,tarjanAll,tarjanAll,Option.bind_assoc]
    congr 1
    funext s
    exact ih s

theorem before_range {size k : Nat} (bound : k ≤ size) (narrow : size < 2 ^ 32) (fuel : Nat) :
    ∃ s,(lateCycle size).tarjanAll (fuel + 1) (List.range k)
      ⟨fun _ => none,0,fun _ => none,fun _ => 0,[]⟩ = some s ∧ Before k s := by
  induction k with
  | zero => exact ⟨_,rfl,rfl,rfl,fun _ _ => rfl,by simp⟩
  | succ k ih =>
    obtain ⟨s,ran,before⟩ := ih (by omega)
    obtain ⟨s',ran',before'⟩ := before.alone (by omega) narrow fuel
    refine ⟨s',?_,before'⟩
    rw [List.range_succ,tarjanAll_append,ran,Option.bind_some,tarjanAll,
      if_pos (before.unvisited k (Nat.le_refl k)),ran']
    rfl

/-- The index of the last node is zero again, so it is popped alone and the one before it never. -/
theorem Before.cycle {size : Nat} {s : Tarjan Nat} (before : Before size s)
    (wraps : (size + 1) % 2 ^ 32 = 0) (nonzero : size ≠ 0) (fuel : Nat) :
    ((lateCycle size).tarjanAll (fuel + 2) [size,size + 1] s).map Tarjan.components =
      some (Function.update s.components (size + 1)
        (some ([size + 1] ++ (s.components (size + 1)).getD []))) := by
  have first : lateNeighbors size size = [size + 1] := by rw [lateNeighbors,if_pos rfl]
  have second : lateNeighbors size (size + 1) = [size] := by
    rw [lateNeighbors,if_neg (by omega),if_pos rfl]
  have zero : (size + 1) % 4294967296 = 0 := wraps
  rw [tarjanAll,if_pos (before.unvisited size (Nat.le_refl size)),tarjanSccHelper,
    lateCycle_outgoing (by omega),first]
  simp [Tarjan.followAll,Tarjan.follow,Tarjan.enter,Tarjan.lower,Tarjan.leave,before.stack,
    before.index,popThrough,zero,before.unvisited,tarjanSccHelper,tarjanAll,
    lateCycle_outgoing,second,nonzero.symm]

/-- With more nodes than there are indices, two nodes of a cycle are taken apart. -/
theorem wrappedIndex_not_components : ¬ ∃ components,
    (lateCycle (2 ^ 32 - 1)).tarjanScc = some components ∧
      (lateCycle (2 ^ 32 - 1)).AreComponents components := by
  rintro ⟨components,ran,are⟩
  have wraps : (2 ^ 32 - 1 + 1) % 2 ^ 32 = 0 := by decide
  have narrow : 2 ^ 32 - 1 < 2 ^ 32 := by decide
  have nonzero : 2 ^ 32 - 1 ≠ 0 := by decide
  generalize 2 ^ 32 - 1 = size at ran are wraps narrow nonzero
  have nodes : (lateCycle size).nodes.length = size + 2 := List.length_range
  have split : List.range (size + 2) = List.range size ++ [size,size + 1] := by
    rw [List.range_succ,List.range_succ,List.append_assoc,List.singleton_append]
  obtain ⟨s,ran',before⟩ := before_range (Nat.le_refl size) narrow (size + 1)
  have found := before.cycle wraps nonzero size
  change ((lateCycle size).tarjanAll (lateCycle size).nodes.length (List.range (size + 2)) _).map
    Tarjan.components = some components at ran
  rw [nodes,split,tarjanAll_append,ran',Option.bind_some,found] at ran
  obtain rfl := Option.some.inj ran
  obtain ⟨root,scc,found,member⟩ := (are.cover size).mp (List.mem_range.mpr (by omega))
  by_cases same : root = size + 1
  · subst same
    rw [Function.update_self] at found
    obtain rfl := Option.some.inj found
    rcases List.mem_append.mp member with there | there
    · have := List.mem_singleton.mp there
      omega
    · exact Nat.lt_irrefl _ (getD_components before (size + 1) size there)
  · rw [Function.update_of_ne same] at found
    exact Nat.lt_irrefl _ (before.components root scc found size member)

end LateCycle

end Memoir.DirectedGraph
