import Memoir.TarjanScc
import Memoir.TopologicalOrder

/-! The condensation of a directed graph. It is built from the roots of the components alone, so what it
keeps depends on which nodes the walk enters first. -/
namespace Memoir.DirectedGraph

variable {NodeType EdgeType : Type} [DecidableEq NodeType]

/-- The graph of the components; the property of a node is the view of the nodes of its component. -/
structure Condensation (NodeType EdgeType : Type) where
  graph : DirectedGraph NodeType EdgeType
  view : NodeType → Option (List NodeType)

section
variable (graph : DirectedGraph NodeType EdgeType)

def addEdges (nodes : List NodeType) (ends : NodeType → NodeType × NodeType) :
    List NodeType → DirectedGraph NodeType EdgeType → Option (DirectedGraph NodeType EdgeType)
  | [],condensation => some condensation
  | neighbor :: rest,condensation =>
    if neighbor ∈ nodes then addEdges nodes ends rest condensation
    else
      (graph.getEdge (ends neighbor).1 (ends neighbor).2).bind fun edge =>
        addEdges nodes ends rest (condensation.addEdge (ends neighbor).1 (ends neighbor).2 edge)

def condenseComponent (root : NodeType) (nodes : List NodeType)
    (condensation : Condensation NodeType EdgeType) : Option (Condensation NodeType EdgeType) :=
  (graph.incoming root).bind fun incoming =>
    (graph.outgoing root).bind fun outgoing =>
      (graph.addEdges nodes (fun source => (source,root)) incoming
        (condensation.graph.addNode root)).bind fun entering =>
          (graph.addEdges nodes (fun out => (root,out)) outgoing entering).map fun leaving =>
            ⟨leaving,Function.update condensation.view root (some nodes)⟩

def condenseAll (components : NodeType → Option (List NodeType)) :
    List NodeType → Condensation NodeType EdgeType → Option (Condensation NodeType EdgeType)
  | [],condensation => some condensation
  | root :: rest,condensation =>
    match components root with
    | none => condenseAll components rest condensation
    | some nodes => (graph.condenseComponent root nodes condensation).bind (condenseAll components rest)

/-- The map of components has its keys in some order of the nodes of the graph. -/
def condense (order : List NodeType) : Option (Condensation NodeType EdgeType) :=
  graph.tarjanScc.bind fun components =>
    graph.condenseAll components order ⟨empty,fun _ => none⟩

structure IsCondensation (condensation : Condensation NodeType EdgeType) : Prop where
  view : ∀ v ∈ condensation.graph.nodes,∃ scc,condensation.view v = some scc ∧
    ∀ w,w ∈ scc ↔ graph.StronglyConnected v w
  one : ∀ v ∈ graph.nodes,∃! root,root ∈ condensation.graph.nodes ∧ graph.StronglyConnected v root
  edges : ∀ a ∈ condensation.graph.nodes,∀ b ∈ condensation.graph.nodes,a ≠ b →
    (condensation.graph.Edge a b ↔
      ∃ u v,graph.StronglyConnected a u ∧ graph.StronglyConnected b v ∧ graph.Edge u v)
  acyclic : ¬ condensation.graph.Cyclic

/-- The first node of a component that the depth-first walk enters. -/
def IsRoot (v : NodeType) : Prop :=
  v ∈ graph.nodes ∧
    ∀ w,graph.StronglyConnected v w → graph.walkOrder.idxOf v ≤ graph.walkOrder.idxOf w

def RootsKeepEdges : Prop :=
  ∀ a b u v,graph.IsRoot a → graph.IsRoot b → a ≠ b → graph.StronglyConnected a u →
    graph.StronglyConnected b v → graph.Edge u v → graph.Edge a b

end

variable {graph : DirectedGraph NodeType EdgeType}

theorem getEdge_some {a b : NodeType} (edge : graph.Edge a b) : ∃ e,graph.getEdge a b = some e := by
  rw [getEdge,if_pos (source_mem edge)]
  obtain ⟨⟨target,e⟩,member,rfl⟩ := List.mem_map.mp edge
  have found : ((graph.outNeighbors a).lookup target).isSome := by
    rw [List.lookup_isSome_iff]
    exact ⟨(target,e),member,by simp⟩
  exact Option.isSome_iff_exists.mp found

theorem addEdges_spec (nodes : List NodeType) (ends : NodeType → NodeType × NodeType)
    {neighbors : List NodeType} (condensation : DirectedGraph NodeType EdgeType)
    (edges : ∀ n ∈ neighbors,graph.Edge (ends n).1 (ends n).2) :
    ∃ result,graph.addEdges nodes ends neighbors condensation = some result ∧
      result.nodes = condensation.nodes ∧
      ∀ v w,result.Edge v w ↔ condensation.Edge v w ∨
        v ∈ condensation.nodes ∧ w ∈ condensation.nodes ∧
          ∃ n ∈ neighbors,n ∉ nodes ∧ ends n = (v,w) := by
  induction neighbors generalizing condensation with
  | nil => exact ⟨condensation,rfl,rfl,by simp⟩
  | cons n neighbors ih =>
    have rest : ∀ n ∈ neighbors,graph.Edge (ends n).1 (ends n).2 := fun n there =>
      edges n (List.mem_cons_of_mem _ there)
    rw [addEdges]
    split_ifs with inside
    · obtain ⟨result,ran,same,edge⟩ := ih condensation rest
      refine ⟨result,ran,same,fun v w => ?_⟩
      rw [edge]
      simp [inside]
    · obtain ⟨e,found⟩ := getEdge_some (edges n List.mem_cons_self)
      obtain ⟨result,ran,same,edge⟩ := ih (condensation.addEdge (ends n).1 (ends n).2 e) rest
      rw [found]
      refine ⟨result,ran,same.trans nodes_addEdge,fun v w => ?_⟩
      rw [edge,edge_addEdge,nodes_addEdge]
      constructor
      · rintro ((old | ⟨rfl,rfl,source,target⟩) | ⟨source,target,m,there,outside,same⟩)
        · exact .inl old
        · exact .inr ⟨source,target,n,List.mem_cons_self,inside,rfl⟩
        · exact .inr ⟨source,target,m,List.mem_cons_of_mem n there,outside,same⟩
      · rintro (old | ⟨source,target,m,there,outside,pair⟩)
        · exact .inl (.inl old)
        · rcases List.mem_cons.mp there with rfl | there
          · rw [pair]
            exact .inl (.inr ⟨rfl,rfl,source,target⟩)
          · exact .inr ⟨source,target,m,there,outside,pair⟩

section
variable {components : NodeType → Option (List NodeType)} (are : graph.AreComponents components)
  {processed : List NodeType} {condensation : Condensation NodeType EdgeType}

structure Condensed (graph : DirectedGraph NodeType EdgeType)
    (components : NodeType → Option (List NodeType)) (processed : List NodeType)
    (condensation : Condensation NodeType EdgeType) : Prop where
  nodes : ∀ v,v ∈ condensation.graph.nodes ↔ v ∈ processed ∧ components v ≠ none
  edges : ∀ v w,condensation.graph.Edge v w ↔
    v ∈ condensation.graph.nodes ∧ w ∈ condensation.graph.nodes ∧ v ≠ w ∧ graph.Edge v w
  view : ∀ v ∈ condensation.graph.nodes,condensation.view v = components v

include are

omit [DecidableEq NodeType] in
theorem apart_of_keys {a b : NodeType} {scc : List NodeType} (key : components a ≠ none)
    (found : components b = some scc) (other : a ≠ b) : a ∉ scc := by
  intro inside
  obtain ⟨own,found'⟩ := Option.ne_none_iff_exists'.mp key
  exact other (are.disjoint a own b scc a found' found (are.exact a own found').1 inside)

theorem Condensed.step (condensed : Condensed graph components processed condensation)
    {root : NodeType} {nodes : List NodeType} (found : components root = some nodes) :
    ∃ result,graph.condenseComponent root nodes condensation = some result ∧
      Condensed graph components (processed ++ [root]) result := by
  obtain ⟨self,_,exact⟩ := are.exact root nodes found
  have member : root ∈ graph.nodes := (are.cover root).mpr ⟨root,nodes,found,self⟩
  have incoming : graph.incoming root = some (graph.inNeighbors root) := if_pos member
  obtain ⟨entering,ran,same,edge⟩ := addEdges_spec nodes (fun source => (source,root))
    (condensation.graph.addNode root) fun n there => (graph.mem_inNeighbors n root).mp there
  obtain ⟨leaving,ran',same',edge'⟩ := addEdges_spec nodes (fun out => (root,out)) entering
    fun n (there : n ∈ graph.successors root) => there
  have key : components root ≠ none := by simp [found]
  have mem : ∀ v,v ∈ leaving.nodes ↔ v ∈ condensation.graph.nodes ∨ v = root := by
    intro v
    rw [same',same,mem_addNode]
  refine ⟨⟨leaving,Function.update condensation.view root (some nodes)⟩,?_,?_,?_,?_⟩
  · rw [condenseComponent,incoming,outgoing_eq member,Option.bind_some,Option.bind_some,ran,
      Option.bind_some,ran']
    rfl
  · intro v
    change v ∈ leaving.nodes ↔ _
    rw [mem,condensed.nodes,List.mem_append,List.mem_singleton]
    constructor
    · rintro (⟨there,known⟩ | rfl)
      · exact ⟨.inl there,known⟩
      · exact ⟨.inr rfl,key⟩
    · rintro ⟨there | rfl,known⟩
      · exact .inl ⟨there,known⟩
      · exact .inr rfl
  · intro v w
    change leaving.Edge v w ↔ v ∈ leaving.nodes ∧ w ∈ leaving.nodes ∧ _
    rw [edge',edge,edge_addNode,condensed.edges,← same,← same']
    have outside : ∀ u,u ∈ leaving.nodes → u ≠ root → u ∉ nodes := by
      intro u there other
      have known := (condensed.nodes u).mp (((mem u).mp there).resolve_right other)
      exact apart_of_keys are known.2 found other
    constructor
    · rintro ((⟨source,target,other,follows⟩ | ⟨source,target,u,there,out,pair⟩) |
        ⟨source,target,u,there,out,pair⟩)
      · exact ⟨(mem v).mpr (.inl source),(mem w).mpr (.inl target),other,follows⟩
      · obtain ⟨rfl,rfl⟩ := Prod.mk.inj pair
        refine ⟨source,target,?_,(graph.mem_inNeighbors u root).mp there⟩
        rintro rfl
        exact out self
      · obtain ⟨rfl,rfl⟩ := Prod.mk.inj pair
        refine ⟨source,target,?_,there⟩
        rintro rfl
        exact out self
    · rintro ⟨source,target,other,follows⟩
      by_cases last : w = root
      · subst last
        exact .inl (.inr ⟨source,target,v,(graph.mem_inNeighbors v w).mpr follows,
          outside v source other,rfl⟩)
      · by_cases first : v = root
        · subst first
          exact .inr ⟨source,target,w,follows,outside w target last,rfl⟩
        · exact .inl (.inl ⟨((mem v).mp source).resolve_right first,
            ((mem w).mp target).resolve_right last,other,follows⟩)
  · intro v there
    change Function.update condensation.view root (some nodes) v = components v
    by_cases same : v = root
    · subst same
      rw [Function.update_self,found]
    · rw [Function.update_of_ne same]
      exact condensed.view v (((mem v).mp there).resolve_right same)

theorem condenseAll_condensed {rest : List NodeType}
    (condensed : Condensed graph components processed condensation) :
    ∃ result,graph.condenseAll components rest condensation = some result ∧
      Condensed graph components (processed ++ rest) result := by
  induction rest generalizing processed condensation with
  | nil => exact ⟨condensation,rfl,(List.append_nil processed).symm ▸ condensed⟩
  | cons n rest ih =>
    rw [condenseAll,← List.singleton_append,← List.append_assoc]
    rcases found : components n with _ | nodes
    · apply ih
      refine ⟨fun v => ?_,condensed.edges,condensed.view⟩
      rw [condensed.nodes,List.mem_append,List.mem_singleton]
      constructor
      · rintro ⟨there,known⟩
        exact ⟨.inl there,known⟩
      · rintro ⟨there | rfl,known⟩
        · exact ⟨there,known⟩
        · exact absurd found known
    · obtain ⟨next,ran,condensed'⟩ := condensed.step are found
      obtain ⟨result,ran',condensed''⟩ := ih condensed'
      refine ⟨result,?_,condensed''⟩
      change (graph.condenseComponent n nodes condensation).bind _ = _
      rw [ran,Option.bind_some,ran']

end

/-- The roots are the nodes, and edges between roots are the edges. -/
theorem condense_spec (small : graph.nodes.length ≤ 2 ^ 32) {order : List NodeType}
    (perm : order.Perm graph.nodes) : ∃ condensation,graph.condense order = some condensation ∧
      (∀ v,v ∈ condensation.graph.nodes ↔ graph.IsRoot v) ∧
      (∀ v w,condensation.graph.Edge v w ↔
        v ∈ condensation.graph.nodes ∧ w ∈ condensation.graph.nodes ∧ v ≠ w ∧ graph.Edge v w) ∧
      (∀ v ∈ condensation.graph.nodes,∃ scc,condensation.view v = some scc ∧
        ∀ w,w ∈ scc ↔ graph.StronglyConnected v w) ∧
      ∀ v ∈ graph.nodes,∃! root,root ∈ condensation.graph.nodes ∧ graph.StronglyConnected v root := by
  obtain ⟨components,ran,are,listed,first⟩ := tarjanScc_spec small
  have start : Condensed graph components [] ⟨empty,fun _ => none⟩ :=
    ⟨by simp [empty],by simp [empty,Edge,successors],by simp [empty]⟩
  obtain ⟨condensation,ran',condensed⟩ := condenseAll_condensed are start
  rw [List.nil_append] at condensed
  have known : ∀ v,v ∈ condensation.graph.nodes ↔ ∃ scc,components v = some scc := by
    intro v
    rw [condensed.nodes,Option.ne_none_iff_exists']
    constructor
    · exact And.right
    · rintro ⟨scc,found⟩
      exact ⟨perm.mem_iff.mpr ((are.cover v).mpr ⟨v,scc,found,(are.exact v scc found).1⟩),scc,found⟩
  have one : ∀ v ∈ graph.nodes,
      ∃! root,root ∈ condensation.graph.nodes ∧ graph.StronglyConnected v root := by
    intro v there
    obtain ⟨root,scc,found,member⟩ := (are.cover v).mp there
    obtain ⟨self,_,exact⟩ := are.exact root scc found
    refine ⟨root,⟨(known root).mpr ⟨scc,found⟩,(exact v member root).mp self⟩,?_⟩
    rintro other ⟨node,connected⟩
    obtain ⟨scc',found'⟩ := (known other).mp node
    exact are.disjoint other scc' root scc other found' found (are.exact other scc' found').1
      ((exact v member other).mpr connected)
  refine ⟨condensation,by rw [condense,ran,Option.bind_some,ran'],fun v => ?_,condensed.edges,?_,one⟩
  · rw [known]
    constructor
    · rintro ⟨scc,found⟩
      obtain ⟨self,_,exact⟩ := are.exact v scc found
      exact ⟨(are.cover v).mpr ⟨v,scc,found,self⟩,
        fun w connected => first v scc found w ((exact v self w).mpr connected)⟩
    · rintro ⟨there,least⟩
      obtain ⟨root,scc,found,member⟩ := (are.cover v).mp there
      obtain ⟨self,_,exact⟩ := are.exact root scc found
      have low := first root scc found v member
      have high := least root ((exact v member root).mp self)
      obtain rfl := (List.idxOf_inj (listed there)).mp (Nat.le_antisymm high low)
      exact ⟨scc,found⟩
  · intro v there
    obtain ⟨scc,found⟩ := (known v).mp there
    obtain ⟨self,_,exact⟩ := are.exact v scc found
    exact ⟨scc,(condensed.view v there).trans found,exact v self⟩

omit [DecidableEq NodeType] in
theorem acyclic_of_edges {condensation : DirectedGraph NodeType EdgeType}
    (edges : ∀ v w,condensation.Edge v w → v ≠ w ∧ graph.Edge v w)
    (apart : ∀ v ∈ condensation.nodes,∀ w ∈ condensation.nodes,graph.StronglyConnected v w → v = w) :
    ¬ condensation.Cyclic := by
  rintro ⟨v,path⟩
  obtain ⟨w,edge,back⟩ := Relation.TransGen.head'_iff.mp path
  obtain ⟨other,edge'⟩ := edges v w edge
  have back' : graph.Reachable w v := by
    apply Relation.ReflTransGen.mono _ _ _ back
    exact fun a b edge => (edges a b edge).2
  exact other (apart v (source_mem edge) w (target_mem edge) ⟨.single edge',back'⟩)

/-- The condensation is right just when edges between components lead from root to root as well. -/
theorem condense_iff (graph : DirectedGraph NodeType EdgeType)
    (small : graph.nodes.length ≤ 2 ^ 32) {order : List NodeType} (perm : order.Perm graph.nodes) :
    (∃ condensation,graph.condense order = some condensation ∧ graph.IsCondensation condensation) ↔
      graph.RootsKeepEdges := by
  obtain ⟨condensation,ran,roots,edges,view,one⟩ := condense_spec small perm
  have apart : ∀ v ∈ condensation.graph.nodes,∀ w ∈ condensation.graph.nodes,
      graph.StronglyConnected v w → v = w := by
    intro v there w there' connected
    exact (one v ((roots v).mp there).1).unique ⟨there,.refl,.refl⟩ ⟨there',connected⟩
  constructor
  · rintro ⟨condensation',ran',is⟩ a b u v first second other reach reach' edge
    obtain rfl := Option.some.inj (ran.symm.trans ran')
    have kept := (is.edges a ((roots a).mpr first) b ((roots b).mpr second) other).mpr
      ⟨u,v,reach,reach',edge⟩
    exact ((edges a b).mp kept).2.2.2
  · intro keep
    refine ⟨condensation,ran,view,one,?_,?_⟩
    · intro a first b second other
      constructor
      · intro edge
        exact ⟨a,b,⟨.refl,.refl⟩,⟨.refl,.refl⟩,((edges a b).mp edge).2.2.2⟩
      · rintro ⟨u,v,reach,reach',edge⟩
        have kept := keep a b u v ((roots a).mp first) ((roots b).mp second) other reach reach' edge
        exact (edges a b).mpr ⟨first,second,other,kept⟩
    · exact acyclic_of_edges (fun v w edge => ((edges v w).mp edge).2.2) apart

theorem triangle_condense : triangle.nodes.length ≤ 2 ^ 32 ∧
    ((∃ condensation,triangle.condense [1,2,0] = some condensation ∧ triangle.IsCondensation condensation) ↔
      triangle.RootsKeepEdges) :=
  ⟨by decide,condense_iff triangle (by decide) (by decide)⟩

/-- A loop of two nodes, of which the second has an edge out of the loop. -/
def loopExit : DirectedGraph Nat Unit :=
  let nodes := ((empty.addNode 0).addNode 1).addNode 2
  ((nodes.addEdge 0 1 ()).addEdge 1 0 ()).addEdge 1 2 ()

theorem loopExit_loses_edge : ¬ ∃ condensation,
    loopExit.condense [0,1,2] = some condensation ∧ loopExit.IsCondensation condensation := by
  rintro ⟨condensation,ran,is⟩
  have nodes : (loopExit.condense [0,1,2]).map (fun c => c.graph.nodes) = some [0,2] := by decide
  have edges : (loopExit.condense [0,1,2]).map (fun c => c.graph.successors 0) = some [] := by decide
  rw [ran] at nodes edges
  have nodes : condensation.graph.nodes = [0,2] := Option.some.inj nodes
  have edges : condensation.graph.successors 0 = [] := Option.some.inj edges
  have loop : loopExit.StronglyConnected 0 1 :=
    ⟨.single (show 1 ∈ loopExit.successors 0 by decide),
      .single (show 0 ∈ loopExit.successors 1 by decide)⟩
  have kept := (is.edges 0 (by rw [nodes]; decide) 2 (by rw [nodes]; decide) (by decide)).mpr
    ⟨1,2,loop,⟨.refl,.refl⟩,show 2 ∈ loopExit.successors 1 by decide⟩
  have kept : 2 ∈ condensation.graph.successors 0 := kept
  rw [edges] at kept
  exact absurd kept List.not_mem_nil

end Memoir.DirectedGraph
