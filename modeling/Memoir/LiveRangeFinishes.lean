import Memoir.LiveRangeGraph
import Mathlib.Data.List.Pairwise

/-! When live-range analysis gets through: where each version is fed by one index along the edges that
the evaluation follows. -/
namespace Memoir
namespace RangeAnalysis
namespace LiveRangeAnalysis

section
variable (isIndex : Value → Prop) (uses : Value → Value → Prop) (order : List Component)

/-- A root is evaluated from the roots that use it, another value from the indices and from what is
evaluated before it. -/
inductive Feeds : Value → Value → Prop
  | root {component other : Component} (isComponent : component ∈ order) (isOther : other ∈ order)
      (outside : other.root ∉ component.nodes) (use : uses other.root component.root) :
      Feeds other.root component.root
  | member {component : Component} {source target : Value} (isComponent : component ∈ order)
      (isMember : target ∈ component.members) (use : uses source target)
      (early : isIndex source ∨ (order.flatMap Component.nodes).idxOf source <
        (order.flatMap Component.nodes).idxOf target) : Feeds source target

def Fed (index value : Value) : Prop :=
  isIndex index ∧ Relation.ReflTransGen (Feeds isIndex uses order) index value

/-- Each version gets the range of an index, a root from one value, and the others of one index. -/
structure Settled (nodes : List Value) : Prop where
  fed : ∀ name, .inst name ∈ nodes → ∃ index, Fed isIndex uses order index (.inst name)
  roots : ∀ component ∈ order, ∀ source source', Feeds isIndex uses order source component.root →
    Feeds isIndex uses order source' component.root → source = source'
  members : ∀ component ∈ order, ∀ value ∈ component.members, ∀ index index',
    Fed isIndex uses order index value → Fed isIndex uses order index' value → index = index'

end

def live (ranges : Ranges) (edges : List Edge) (merged : Option LiveRange) : List LiveRange :=
  merged.toList ++ edges.filterMap fun edge => ranges edge.source

theorem propagateEdge_eq {ranges : Ranges} {edge : Edge} (isRange : edge.constraint = .propagateRange) :
    propagateEdge ranges edge = some (ranges edge.source) := by
  unfold propagateEdge
  rw [isRange]

theorem mergeRoot_iff {ranges : Ranges} {edges : List Edge} {result : Option LiveRange}
    (propagate : ∀ edge ∈ edges, edge.constraint = .propagateRange) (merged : Option LiveRange) :
    mergeRoot ranges edges merged = some result ↔
      (live ranges edges merged).length ≤ 1 ∧ result = (live ranges edges merged).head? := by
  induction edges generalizing merged with
  | nil => cases merged <;> simp [mergeRoot,live,eq_comm]
  | cons edge edges ih =>
    have rest := ih fun edge member => propagate edge (by simp [member])
    unfold mergeRoot at rest ⊢
    rw [List.foldlM_cons,propagateEdge_eq (propagate edge (by simp))]
    cases isSource : ranges edge.source with
    | none => simpa [live,isSource] using rest merged
    | some range => cases merged with
      | none => simpa [live,isSource] using rest (some range)
      | some other => simp [live,isSource]

theorem mergeMember_iff {ranges : Ranges} {edges : List Edge} {result : Option LiveRange}
    (propagate : ∀ edge ∈ edges, edge.constraint = .propagateRange) (merged : Option LiveRange) :
    mergeMember ranges edges merged = some result ↔
      (∀ range ∈ live ranges edges merged, ∀ other ∈ live ranges edges merged, range = other) ∧
        result = (live ranges edges merged).head? := by
  induction edges generalizing merged with
  | nil => cases merged <;> simp [mergeMember,live,eq_comm]
  | cons edge edges ih =>
    have rest := ih fun edge member => propagate edge (by simp [member])
    unfold mergeMember at rest ⊢
    rw [List.foldlM_cons,propagateEdge_eq (propagate edge (by simp))]
    cases isSource : ranges edge.source with
    | none => simpa [live,isSource] using rest merged
    | some range => cases merged with
      | none => simpa [live,isSource] using rest (some range)
      | some other =>
        by_cases same : range = other
        · subst same
          simpa [live,isSource] using rest (some range)
        · simp [live,isSource,same]

theorem filterMap_length_le_one {α β : Type} {f : α → Option β} {list : List α} (nodup : list.Nodup) :
    (list.filterMap f).length ≤ 1 ↔
      ∀ first ∈ list, ∀ second ∈ list, f first ≠ none → f second ≠ none → first = second := by
  induction list with
  | nil => simp
  | cons head list ih =>
    rw [List.nodup_cons] at nodup
    specialize ih nodup.2
    cases isHead : f head with
    | none =>
      rw [List.filterMap_cons_none isHead,ih]
      constructor
      · intro same first isFirst second isSecond some some'
        rcases List.mem_cons.mp isFirst with rfl | isFirst
        · exact absurd isHead some
        · rcases List.mem_cons.mp isSecond with rfl | isSecond
          · exact absurd isHead some'
          · exact same first isFirst second isSecond some some'
      · exact fun same first isFirst second isSecond => same first (by simp [isFirst]) second (by simp [isSecond])
    | some value =>
      rw [List.filterMap_cons_some isHead,List.length_cons,Nat.succ_le_succ_iff,Nat.le_zero,
        List.length_eq_zero_iff,List.filterMap_eq_nil_iff]
      constructor
      · intro others first isFirst second isSecond some some'
        rcases List.mem_cons.mp isFirst with rfl | isFirst
        · rcases List.mem_cons.mp isSecond with rfl | isSecond
          · rfl
          · exact absurd (others second isSecond) some'
        · exact absurd (others first isFirst) some
      · intro same other isOther
        by_contra some
        obtain rfl := same head (by simp) other (by simp [isOther]) (by simp [isHead]) some
        exact nodup.1 isOther

structure Evaluable (graph : Graph) (isIndex : Value → Prop) (order : List Component) : Prop where
  index : ∀ value ∈ graph.nodes.map Prod.fst, isIndex value →
    ∃ range, graph.ranges value = some (.index value range)
  plain : ∀ value, ¬ isIndex value → graph.ranges value = none
  propagate : ∀ edge ∈ graph.edges, edge.constraint = .propagateRange
  sources : ∀ edge ∈ graph.edges, edge.source ∈ graph.nodes.map Prod.fst
  targets : ∀ edge ∈ graph.edges, ¬ isIndex edge.target
  single : graph.edges.Pairwise fun edge later => ¬ (edge.source = later.source ∧ edge.target = later.target)
  nodup : (order.flatMap Component.nodes).Nodup
  all : ∀ value ∈ order.flatMap Component.nodes, value ∈ graph.nodes.map Prod.fst
  topological : order.Pairwise fun component later => ¬ graph.hasEdge later.root component.root = true

abbrev Graph.Uses (graph : Graph) (source target : Value) : Prop := graph.hasEdge source target = true

section
variable {graph : Graph} {isIndex : Value → Prop} {order : List Component} {ranges : Ranges}
variable {before : List Value} {component : Component} {source value index : Value}

theorem Feeds.use (feeds : Feeds isIndex graph.Uses order source value) :
    ∃ edge ∈ graph.edges, edge.source = source ∧ edge.target = value := by
  cases feeds with
  | root isComponent isOther outside use => exact Graph.hasEdge_iff.mp use
  | member isComponent isMember use early => exact Graph.hasEdge_iff.mp use

theorem Evaluable.not_feeds (evaluable : Evaluable graph isIndex order) (isValue : isIndex value) :
    ¬ Feeds isIndex graph.Uses order source value := by
  intro feeds
  obtain ⟨edge,isEdge,_,rfl⟩ := feeds.use
  exact evaluable.targets edge isEdge isValue

theorem Evaluable.fed_index (evaluable : Evaluable graph isIndex order) (isValue : isIndex value) :
    Fed isIndex graph.Uses order index value ↔ index = value := by
  constructor
  · rintro ⟨_,path⟩
    cases path with
    | refl => rfl
    | tail _ feeds => exact absurd feeds (evaluable.not_feeds isValue)
  · rintro rfl
    exact ⟨isValue,.refl⟩

theorem fed_iff (notIndex : ¬ isIndex value) : Fed isIndex graph.Uses order index value ↔
    ∃ source, Feeds isIndex graph.Uses order source value ∧ Fed isIndex graph.Uses order index source := by
  constructor
  · rintro ⟨isValue,path⟩
    cases path with
    | refl => exact absurd isValue notIndex
    | tail path feeds => exact ⟨_,feeds,isValue,path⟩
  · rintro ⟨source,feeds,isValue,path⟩
    exact ⟨isValue,path.tail feeds⟩

theorem Evaluable.fed_range (evaluable : Evaluable graph isIndex order)
    (fed : Fed isIndex graph.Uses order index value) (isNode : value ∈ graph.nodes.map Prod.fst) :
    ∃ range, graph.ranges index = some (.index index range) := by
  refine evaluable.index index ?_ fed.1
  rcases fed.2.cases_head with rfl | ⟨next,feeds,_⟩
  · exact isNode
  · obtain ⟨edge,isEdge,rfl,_⟩ := feeds.use
    exact evaluable.sources edge isEdge

structure Valued (graph : Graph) (isIndex : Value → Prop) (order : List Component) (ranges : Ranges)
    (before : List Value) : Prop where
  later : ∀ value, value ∉ before → ranges value = graph.ranges value
  evaluated : ∀ value ∈ before, ∀ range, ranges value = some range ↔
    ∃ index, Fed isIndex graph.Uses order index value ∧ graph.ranges index = some range

theorem Valued.known (valued : Valued graph isIndex order ranges before)
    (evaluable : Evaluable graph isIndex order) (early : isIndex source ∨ source ∈ before) (range : LiveRange) :
    ranges source = some range ↔
      ∃ index, Fed isIndex graph.Uses order index source ∧ graph.ranges index = some range := by
  by_cases isBefore : source ∈ before
  · exact valued.evaluated source isBefore range
  · have isSource := early.resolve_right isBefore
    rw [valued.later source isBefore]
    constructor
    · exact fun isRange => ⟨source,(evaluable.fed_index isSource).mpr rfl,isRange⟩
    · rintro ⟨index,fed,isRange⟩
      rwa [(evaluable.fed_index isSource).mp fed] at isRange

theorem Valued.ne_none (valued : Valued graph isIndex order ranges before)
    (evaluable : Evaluable graph isIndex order) (early : isIndex source ∨ source ∈ before)
    (isNode : source ∈ graph.nodes.map Prod.fst) :
    ranges source ≠ none ↔ ∃ index, Fed isIndex graph.Uses order index source := by
  rw [Option.ne_none_iff_exists']
  constructor
  · rintro ⟨range,isRange⟩
    obtain ⟨index,fed,_⟩ := (valued.known evaluable early range).mp isRange
    exact ⟨index,fed⟩
  · rintro ⟨index,fed⟩
    obtain ⟨range,isRange⟩ := evaluable.fed_range fed isNode
    exact ⟨_,(valued.known evaluable early _).mpr ⟨index,fed,isRange⟩⟩

structure Looks (graph : Graph) (isIndex : Value → Prop) (order : List Component) (before : List Value)
    (value : Value) (edges : List Edge) : Prop where
  sublist : edges.Sublist graph.edges
  target : ∀ edge ∈ edges, edge.target = value
  feeds : ∀ source, Feeds isIndex graph.Uses order source value ↔
    ∃ edge ∈ edges, edge.source = source ∧ (isIndex source ∨ source ∈ before)

variable {edges : List Edge}

theorem Valued.mem_live (valued : Valued graph isIndex order ranges before)
    (evaluable : Evaluable graph isIndex order) (looks : Looks graph isIndex order before value edges)
    (fresh : value ∉ before) (range : LiveRange) : range ∈ live ranges edges (ranges value) ↔
      ∃ index, Fed isIndex graph.Uses order index value ∧ graph.ranges index = some range := by
  rw [live,List.mem_append,Option.mem_toList,List.mem_filterMap,valued.later value fresh]
  by_cases isValue : isIndex value
  · have noEdge : ¬ ∃ edge ∈ edges, ranges edge.source = some range := by
      rintro ⟨edge,isEdge,_⟩
      exact evaluable.targets edge (looks.sublist.subset isEdge) (looks.target edge isEdge ▸ isValue)
    constructor
    · rintro (isRange | isEdge)
      · exact ⟨value,(evaluable.fed_index isValue).mpr rfl,isRange⟩
      · exact absurd isEdge noEdge
    · rintro ⟨index,fed,isRange⟩
      rw [(evaluable.fed_index isValue).mp fed] at isRange
      exact .inl isRange
  · rw [evaluable.plain value isValue]
    constructor
    · rintro (isRange | ⟨edge,isEdge,isRange⟩)
      · exact absurd isRange (by simp)
      · by_cases early : isIndex edge.source ∨ edge.source ∈ before
        · obtain ⟨index,fed,isRange⟩ := (valued.known evaluable early range).mp isRange
          exact ⟨index,(fed_iff isValue).mpr ⟨_,(looks.feeds _).mpr ⟨edge,isEdge,rfl,early⟩,fed⟩,isRange⟩
        · push Not at early
          rw [valued.later _ early.2,evaluable.plain _ early.1] at isRange
          exact absurd isRange (by simp)
    · rintro ⟨index,fed,isRange⟩
      obtain ⟨source,feeds,fed⟩ := (fed_iff isValue).mp fed
      obtain ⟨edge,isEdge,rfl,early⟩ := (looks.feeds source).mp feeds
      exact .inr ⟨edge,isEdge,(valued.known evaluable early range).mpr ⟨index,fed,isRange⟩⟩

theorem head?_eq_some_iff_mem {α : Type} {list : List α}
    (same : ∀ first ∈ list, ∀ second ∈ list, first = second) (value : α) :
    list.head? = some value ↔ value ∈ list := by
  cases list with
  | nil => simp
  | cons head list =>
    simp only [List.head?_cons,Option.some.injEq]
    exact ⟨fun isHead => by simp [isHead],fun member => same head (by simp) value member⟩

theorem same_of_length_le_one {α : Type} {list : List α} (short : list.length ≤ 1) :
    ∀ first ∈ list, ∀ second ∈ list, first = second := by
  intro first isFirst second isSecond
  match list,short with
  | [],_ => exact absurd isFirst (by simp)
  | [value],_ => rw [List.mem_singleton.mp isFirst,List.mem_singleton.mp isSecond]

theorem Valued.step (valued : Valued graph isIndex order ranges before)
    (evaluable : Evaluable graph isIndex order) (looks : Looks graph isIndex order before value edges)
    (fresh : value ∉ before)
    (same : ∀ range ∈ live ranges edges (ranges value), ∀ other ∈ live ranges edges (ranges value), range = other) :
    Valued graph isIndex order (Function.update ranges value (live ranges edges (ranges value)).head?)
      (before ++ [value]) := by
  constructor
  · intro other notBefore
    rw [List.mem_append,List.mem_singleton,not_or] at notBefore
    rw [Function.update_of_ne notBefore.2,valued.later other notBefore.1]
  · intro other isBefore range
    by_cases isValue : other = value
    · subst isValue
      rw [Function.update_self,head?_eq_some_iff_mem same,valued.mem_live evaluable looks fresh]
    · rw [Function.update_of_ne isValue]
      refine valued.evaluated other ?_ range
      simpa [isValue] using isBefore

/-- The ranges of different indices are different. -/
theorem Valued.same_iff (valued : Valued graph isIndex order ranges before)
    (evaluable : Evaluable graph isIndex order) (looks : Looks graph isIndex order before value edges)
    (fresh : value ∉ before) (isNode : value ∈ graph.nodes.map Prod.fst) :
    (∀ range ∈ live ranges edges (ranges value), ∀ other ∈ live ranges edges (ranges value), range = other) ↔
      ∀ index index', Fed isIndex graph.Uses order index value → Fed isIndex graph.Uses order index' value →
        index = index' := by
  constructor
  · intro same index index' fed fed'
    obtain ⟨range,isRange⟩ := evaluable.fed_range fed isNode
    obtain ⟨range',isRange'⟩ := evaluable.fed_range fed' isNode
    have equal := same _ ((valued.mem_live evaluable looks fresh _).mpr ⟨index,fed,isRange⟩)
      _ ((valued.mem_live evaluable looks fresh _).mpr ⟨index',fed',isRange'⟩)
    exact (LiveRange.index.inj equal).1
  · intro same range isRange other isOther
    obtain ⟨index,fed,isRange⟩ := (valued.mem_live evaluable looks fresh range).mp isRange
    obtain ⟨index',fed',isOther⟩ := (valued.mem_live evaluable looks fresh other).mp isOther
    rw [same index index' fed fed'] at isRange
    exact Option.some.inj (isRange.symm.trans isOther)

/-- One edge of a root has a range. -/
theorem Valued.length_le_one_iff (valued : Valued graph isIndex order ranges before)
    (evaluable : Evaluable graph isIndex order) (looks : Looks graph isIndex order before value edges)
    (fresh : value ∉ before) (early : ∀ edge ∈ edges, edge.source ∈ before) :
    (live ranges edges (ranges value)).length ≤ 1 ↔ ∀ source source',
      Feeds isIndex graph.Uses order source value → Feeds isIndex graph.Uses order source' value →
        (∃ index, Fed isIndex graph.Uses order index source) →
          (∃ index, Fed isIndex graph.Uses order index source') → source = source' := by
  have single := evaluable.single.sublist looks.sublist
  have nodup : (edges.map Edge.source).Nodup := by
    rw [List.Nodup,List.pairwise_map]
    refine single.imp_of_mem fun isEdge isLater apart same => apart ⟨same,?_⟩
    rw [looks.target _ isEdge,looks.target _ isLater]
  have node (edge : Edge) (isEdge : edge ∈ edges) : edge.source ∈ graph.nodes.map Prod.fst :=
    evaluable.sources edge (looks.sublist.subset isEdge)
  have isLive (edge : Edge) (isEdge : edge ∈ edges) := valued.ne_none evaluable
    (.inr (early edge isEdge)) (node edge isEdge)
  by_cases isValue : isIndex value
  · have noEdge : edges = [] := List.eq_nil_iff_forall_not_mem.mpr fun edge isEdge =>
      evaluable.targets edge (looks.sublist.subset isEdge) (looks.target edge isEdge ▸ isValue)
    subst noEdge
    refine iff_of_true ?_ fun source _ feeds => absurd feeds (evaluable.not_feeds isValue)
    cases ranges value <;> simp [live]
  · have isLength : (live ranges edges (ranges value)).length =
        ((edges.map Edge.source).filterMap ranges).length := by
      rw [live,valued.later value fresh,evaluable.plain value isValue,List.filterMap_map]
      rfl
    rw [isLength,filterMap_length_le_one nodup]
    constructor
    · intro same source source' feeds feeds' fed fed'
      obtain ⟨edge,isEdge,rfl,_⟩ := (looks.feeds source).mp feeds
      obtain ⟨edge',isEdge',rfl,_⟩ := (looks.feeds source').mp feeds'
      exact same _ (List.mem_map_of_mem isEdge) _ (List.mem_map_of_mem isEdge') ((isLive edge isEdge).mpr fed)
        ((isLive edge' isEdge').mpr fed')
    · intro same first isFirst second isSecond some some'
      obtain ⟨edge,isEdge,rfl⟩ := List.mem_map.mp isFirst
      obtain ⟨edge',isEdge',rfl⟩ := List.mem_map.mp isSecond
      exact same _ _ ((looks.feeds _).mpr ⟨edge,isEdge,rfl,.inr (early edge isEdge)⟩)
        ((looks.feeds _).mpr ⟨edge',isEdge',rfl,.inr (early edge' isEdge')⟩) ((isLive edge isEdge).mp some)
        ((isLive edge' isEdge').mp some')

theorem Evaluable.unique (evaluable : Evaluable graph isIndex order) {other : Component}
    (isComponent : component ∈ order) (isOther : other ∈ order) (member : value ∈ component.nodes)
    (member' : value ∈ other.nodes) : component = other := by
  obtain ⟨_,apart⟩ := List.nodup_flatMap.mp evaluable.nodup
  have symm : Std.Symm (Function.onFun List.Disjoint Component.nodes) :=
    ⟨fun _ _ disjoint => List.disjoint_symm disjoint⟩
  by_contra different
  exact apart.forall isComponent isOther different member member'

theorem Evaluable.root_not_member (evaluable : Evaluable graph isIndex order) (isComponent : component ∈ order)
    {other : Component} (isOther : other ∈ order) : other.root ∉ component.members := by
  intro member
  obtain rfl := evaluable.unique isComponent isOther (List.mem_cons_of_mem _ member) (List.mem_cons_self ..)
  exact (List.nodup_cons.mp ((List.nodup_flatMap.mp evaluable.nodup).1 _ isComponent)).1 member

theorem idxOf_lt_iff (source : Value) {flat after : List Value} (isFlat : flat = before ++ value :: after)
    (nodup : flat.Nodup) :
    flat.idxOf source < flat.idxOf value ↔ source ∈ before := by
  subst isFlat
  have fresh : value ∉ before := fun member => (List.nodup_append.mp nodup).2.2 value member value (by simp) rfl
  rw [List.idxOf_append_of_notMem fresh,List.idxOf_cons_self,Nat.add_zero]
  by_cases member : source ∈ before
  · rw [List.idxOf_append_of_mem member]
    exact iff_of_true (List.idxOf_lt_length_iff.mpr member) member
  · rw [List.idxOf_append_of_notMem member]
    exact iff_of_false (by omega) member

theorem Evaluable.looks_member (evaluable : Evaluable graph isIndex order) {after : List Value}
    (isFlat : order.flatMap Component.nodes = before ++ value :: after) (isComponent : component ∈ order)
    (isMember : value ∈ component.members) :
    Looks graph isIndex order before value (graph.edges.filter (·.target = value)) := by
  refine ⟨List.filter_sublist,fun edge member => by simpa using (List.mem_filter.mp member).2,fun source => ?_⟩
  have early := idxOf_lt_iff source isFlat evaluable.nodup
  constructor
  · intro feeds
    cases feeds with
    | root isComponent' isOther outside use =>
      exact absurd isMember (evaluable.root_not_member isComponent isComponent')
    | member isComponent' isMember' use isEarly =>
      obtain ⟨edge,isEdge,isSource,isTarget⟩ := Graph.hasEdge_iff.mp use
      exact ⟨edge,by simp [isEdge,isTarget],isSource,isEarly.imp_right early.mp⟩
  · rintro ⟨edge,isEdge,isSource,isEarly⟩
    rw [List.mem_filter,decide_eq_true_eq] at isEdge
    exact .member isComponent isMember (Graph.hasEdge_iff.mpr ⟨edge,isEdge.1,isSource,isEdge.2⟩)
      (isEarly.imp_right early.mpr)

def rootEdges (graph : Graph) (order : List Component) (component : Component) : List Edge :=
  graph.edges.filter fun edge => edge.target = component.root ∧ edge.source ∉ component.nodes ∧
    edge.source ∈ order.map (·.root)

theorem mem_rootEdges {edge : Edge} : edge ∈ rootEdges graph order component ↔
    edge ∈ graph.edges ∧ edge.target = component.root ∧ edge.source ∉ component.nodes ∧
      ∃ other ∈ order, other.root = edge.source := by
  rw [rootEdges,List.mem_filter,decide_eq_true_eq,List.mem_map]

theorem Evaluable.rootEdges_early (evaluable : Evaluable graph isIndex order) {front back : List Component}
    (isOrder : order = front ++ component :: back) {edge : Edge} (isEdge : edge ∈ rootEdges graph order component) :
    edge.source ∈ front.flatMap Component.nodes := by
  obtain ⟨isEdge,isTarget,outside,other,isOther,isRoot⟩ := mem_rootEdges.mp isEdge
  have topological := evaluable.topological
  rw [isOrder,List.pairwise_append,List.pairwise_cons] at topological
  rw [isOrder,List.mem_append,List.mem_cons] at isOther
  rcases isOther with isFront | rfl | isBack
  · exact List.mem_flatMap.mpr ⟨other,isFront,isRoot ▸ List.mem_cons_self ..⟩
  · exact absurd (isRoot ▸ List.mem_cons_self ..) outside
  · exact absurd (Graph.hasEdge_iff.mpr ⟨edge,isEdge,isRoot.symm,isTarget⟩) (topological.2.1.1 other isBack)

theorem Evaluable.looks_root (evaluable : Evaluable graph isIndex order) {front back : List Component}
    (isOrder : order = front ++ component :: back) :
    Looks graph isIndex order (front.flatMap Component.nodes) component.root (rootEdges graph order component) := by
  have isComponent : component ∈ order := by simp [isOrder]
  refine ⟨List.filter_sublist,fun edge member => (mem_rootEdges.mp member).2.1,fun source => ?_⟩
  constructor
  · generalize isRoot : component.root = root
    intro feeds
    cases feeds with
    | root isComponent' isOther outside use =>
      obtain rfl := evaluable.unique isComponent isComponent' (isRoot ▸ List.mem_cons_self ..) (List.mem_cons_self ..)
      obtain ⟨edge,isEdge,isSource,isTarget⟩ := Graph.hasEdge_iff.mp use
      have isRootEdge := mem_rootEdges.mpr ⟨isEdge,isTarget,isSource ▸ outside,_,isOther,isSource.symm⟩
      exact ⟨edge,isRootEdge,isSource,.inr (isSource ▸ evaluable.rootEdges_early isOrder isRootEdge)⟩
    | member isComponent' isMember use isEarly =>
      exact absurd (isRoot ▸ isMember) (evaluable.root_not_member isComponent' isComponent)
  · rintro ⟨edge,isEdge,rfl,_⟩
    obtain ⟨isEdge,isTarget,outside,other,isOther,isRoot⟩ := mem_rootEdges.mp isEdge
    rw [← isRoot] at outside ⊢
    exact .root isComponent isOther outside (Graph.hasEdge_iff.mpr ⟨edge,isEdge,isRoot.symm,isTarget⟩)

def MemberOk (graph : Graph) (isIndex : Value → Prop) (order : List Component) (value : Value) : Prop :=
  ∀ index index', Fed isIndex graph.Uses order index value → Fed isIndex graph.Uses order index' value →
    index = index'

def RootOk (graph : Graph) (isIndex : Value → Prop) (order : List Component) (value : Value) : Prop :=
  ∀ source source', Feeds isIndex graph.Uses order source value → Feeds isIndex graph.Uses order source' value →
    (∃ index, Fed isIndex graph.Uses order index source) →
      (∃ index, Fed isIndex graph.Uses order index source') → source = source'

theorem Evaluable.members_spec (evaluable : Evaluable graph isIndex order) (isComponent : component ∈ order)
    {members after : List Value} (subset : ∀ value ∈ members, value ∈ component.members)
    (isFlat : order.flatMap Component.nodes = before ++ members ++ after)
    (valued : Valued graph isIndex order ranges before) :
    ((∃ result, members.foldlM (fun ranges node => do
        let merged ← mergeMember ranges (graph.edges.filter (·.target = node)) (ranges node)
        return Function.update ranges node merged) ranges = some result) ↔
      ∀ value ∈ members, MemberOk graph isIndex order value) ∧
    ∀ result, members.foldlM (fun ranges node => do
        let merged ← mergeMember ranges (graph.edges.filter (·.target = node)) (ranges node)
        return Function.update ranges node merged) ranges = some result →
      Valued graph isIndex order result (before ++ members) := by
  induction members generalizing ranges before with
  | nil =>
    refine ⟨iff_of_true ⟨ranges,rfl⟩ (by simp),fun result isResult => ?_⟩
    obtain rfl := Option.some.inj isResult
    simpa using valued
  | cons value members ih =>
    have isFlat' : order.flatMap Component.nodes = before ++ value :: (members ++ after) := by simp [isFlat]
    have looks := evaluable.looks_member isFlat' isComponent (subset value (by simp))
    have nodup := evaluable.nodup
    rw [isFlat',List.nodup_append] at nodup
    have fresh : value ∉ before := fun member => nodup.2.2 value member value (by simp) rfl
    have isNode := evaluable.all value (by simp [isFlat'])
    have same := valued.same_iff evaluable looks fresh isNode
    have propagate (edge : Edge) (member : edge ∈ graph.edges.filter (·.target = value)) :=
      evaluable.propagate edge (looks.sublist.subset member)
    have rest (ok : MemberOk graph isIndex order value) := ih (fun value member => subset value (by simp [member]))
      (by simp [isFlat] : order.flatMap Component.nodes = (before ++ [value]) ++ members ++ after)
      (valued.step evaluable looks fresh (same.mpr ok))
    simp only [List.foldlM_cons,Option.bind_eq_bind,Option.bind_eq_some_iff,Option.pure_def]
    constructor
    · constructor
      · rintro ⟨result,middle,⟨merged,isMerged,isMiddle⟩,isResult⟩
        obtain ⟨all,rfl⟩ := (mergeMember_iff propagate _).mp isMerged
        obtain rfl := Option.some.inj isMiddle
        exact List.forall_mem_cons.mpr ⟨same.mp all,(rest (same.mp all)).1.mp ⟨result,isResult⟩⟩
      · intro ok
        have okValue := ok value (by simp)
        obtain ⟨result,isResult⟩ := (rest okValue).1.mpr fun other member => ok other (by simp [member])
        exact ⟨result,_,⟨_,(mergeMember_iff propagate _).mpr ⟨same.mpr okValue,rfl⟩,rfl⟩,isResult⟩
    · rintro result ⟨middle,⟨merged,isMerged,isMiddle⟩,isResult⟩
      obtain ⟨all,rfl⟩ := (mergeMember_iff propagate _).mp isMerged
      obtain rfl := Option.some.inj isMiddle
      simpa using (rest (same.mp all)).2 result isResult

theorem Evaluable.component_spec (evaluable : Evaluable graph isIndex order) {front back : List Component}
    (isOrder : order = front ++ component :: back)
    (valued : Valued graph isIndex order ranges (front.flatMap Component.nodes)) :
    ((∃ result, evaluateComponent graph (order.map (·.root)) ranges component = some result) ↔
      RootOk graph isIndex order component.root ∧ ∀ value ∈ component.members, MemberOk graph isIndex order value) ∧
    ∀ result, evaluateComponent graph (order.map (·.root)) ranges component = some result →
      Valued graph isIndex order result ((front ++ [component]).flatMap Component.nodes) := by
  have isComponent : component ∈ order := by simp [isOrder]
  have isFlat : order.flatMap Component.nodes = front.flatMap Component.nodes ++ [component.root] ++
      component.members ++ back.flatMap Component.nodes := by
    simp [isOrder,Component.nodes]
  have looks := evaluable.looks_root isOrder
  have nodup := evaluable.nodup
  rw [isFlat,List.append_assoc,List.append_assoc,List.nodup_append] at nodup
  have fresh : component.root ∉ front.flatMap Component.nodes :=
    fun member => nodup.2.2 _ member component.root (by simp) rfl
  have short := valued.length_le_one_iff evaluable looks fresh fun edge => evaluable.rootEdges_early isOrder
  have propagate (edge : Edge) (member : edge ∈ rootEdges graph order component) :=
    evaluable.propagate edge (looks.sublist.subset member)
  have rest (ok : RootOk graph isIndex order component.root) := evaluable.members_spec isComponent
    (fun _ member => member) isFlat
    (valued.step evaluable looks fresh (same_of_length_le_one (short.mpr ok)))
  have isEvaluated : evaluateComponent graph (order.map (·.root)) ranges component =
      (mergeRoot ranges (rootEdges graph order component) (ranges component.root)).bind fun merged =>
        component.members.foldlM (fun ranges node => do
          let merged ← mergeMember ranges (graph.edges.filter (·.target = node)) (ranges node)
          return Function.update ranges node merged) (Function.update ranges component.root merged) := rfl
  rw [isEvaluated]
  simp only [Option.bind_eq_some_iff]
  constructor
  · constructor
    · rintro ⟨result,merged,isMerged,isResult⟩
      obtain ⟨one,rfl⟩ := (mergeRoot_iff propagate _).mp isMerged
      exact ⟨short.mp one,(rest (short.mp one)).1.mp ⟨result,isResult⟩⟩
    · rintro ⟨ok,okMembers⟩
      obtain ⟨result,isResult⟩ := (rest ok).1.mpr okMembers
      exact ⟨result,_,(mergeRoot_iff propagate _).mpr ⟨short.mpr ok,rfl⟩,isResult⟩
  · rintro result ⟨merged,isMerged,isResult⟩
    obtain ⟨one,rfl⟩ := (mergeRoot_iff propagate _).mp isMerged
    simpa [Component.nodes] using (rest (short.mp one)).2 result isResult

theorem Evaluable.order_spec (evaluable : Evaluable graph isIndex order) {front back : List Component}
    (isOrder : order = front ++ back)
    (valued : Valued graph isIndex order ranges (front.flatMap Component.nodes)) :
    ((∃ result, back.foldlM (evaluateComponent graph (order.map (·.root))) ranges = some result) ↔
      ∀ component ∈ back, RootOk graph isIndex order component.root ∧
        ∀ value ∈ component.members, MemberOk graph isIndex order value) ∧
    ∀ result, back.foldlM (evaluateComponent graph (order.map (·.root))) ranges = some result →
      Valued graph isIndex order result (order.flatMap Component.nodes) := by
  induction back generalizing front ranges with
  | nil =>
    refine ⟨iff_of_true ⟨ranges,rfl⟩ (by simp),fun result isResult => ?_⟩
    obtain rfl := Option.some.inj isResult
    have same : front = order := by simp [isOrder]
    rwa [same] at valued
  | cons component back ih =>
    obtain ⟨gets,steps⟩ := evaluable.component_spec isOrder valued
    have rest {middle : Ranges}
        (isMiddle : evaluateComponent graph (order.map (·.root)) ranges component = some middle) :=
      ih (by simp [isOrder]) (steps middle isMiddle)
    simp only [List.foldlM_cons,Option.bind_eq_bind,Option.bind_eq_some_iff]
    constructor
    · constructor
      · rintro ⟨result,middle,isMiddle,isResult⟩
        exact List.forall_mem_cons.mpr ⟨gets.mp ⟨middle,isMiddle⟩,(rest isMiddle).1.mp ⟨result,isResult⟩⟩
      · intro ok
        obtain ⟨middle,isMiddle⟩ := gets.mpr (ok component (by simp))
        obtain ⟨result,isResult⟩ := (rest isMiddle).1.mpr fun other member => ok other (by simp [member])
        exact ⟨result,middle,isMiddle,isResult⟩
    · rintro result ⟨middle,isMiddle,isResult⟩
      exact (rest isMiddle).2 result isResult

theorem Evaluable.evaluate_spec (evaluable : Evaluable graph isIndex order) :
    ((∃ result, evaluate graph order = some result) ↔
      ∀ component ∈ order, RootOk graph isIndex order component.root ∧
        ∀ value ∈ component.members, MemberOk graph isIndex order value) ∧
    ∀ result, evaluate graph order = some result →
      Valued graph isIndex order result (order.flatMap Component.nodes) :=
  evaluable.order_spec (List.nil_append order).symm ⟨fun _ _ => rfl,by simp⟩

/-- Where every version is fed, the qualifications are void. -/
theorem Evaluable.settled_iff (evaluable : Evaluable graph isIndex order)
    (all : ∀ value ∈ graph.nodes.map Prod.fst, value ∈ order.flatMap Component.nodes)
    (sources : ∀ edge ∈ graph.edges, isIndex edge.source ∨ ∃ name, edge.source = .inst name) :
    (∃ ranges, evaluate graph order = some ranges ∧
      ∀ name, .inst name ∈ graph.nodes.map Prod.fst → ranges (.inst name) ≠ none) ↔
    Settled isIndex graph.Uses order (graph.nodes.map Prod.fst) := by
  obtain ⟨gets,valued⟩ := evaluable.evaluate_spec
  have fed_iff {ranges : Ranges} (isRanges : evaluate graph order = some ranges) {value : Value}
      (isNode : value ∈ graph.nodes.map Prod.fst) :=
    (valued ranges isRanges).ne_none evaluable (.inr (all value isNode)) isNode
  constructor
  · rintro ⟨ranges,isRanges,notNull⟩
    have ok := gets.mp ⟨ranges,isRanges⟩
    have fed (name : Nat) (isNode : .inst name ∈ graph.nodes.map Prod.fst) :=
      (fed_iff isRanges isNode).mp (notNull name isNode)
    have isFed {source value : Value} (feeds : Feeds isIndex graph.Uses order source value) :
        ∃ index, Fed isIndex graph.Uses order index source := by
      obtain ⟨edge,isEdge,rfl,_⟩ := feeds.use
      rcases sources edge isEdge with isSource | ⟨name,isName⟩
      · exact ⟨_,(evaluable.fed_index isSource).mpr rfl⟩
      · have isNode := evaluable.sources edge isEdge
        rw [isName] at isNode ⊢
        exact fed name isNode
    exact ⟨fed,fun component isComponent source source' feeds feeds' =>
      (ok component isComponent).1 source source' feeds feeds' (isFed feeds) (isFed feeds'),
      fun component isComponent => (ok component isComponent).2⟩
  · intro settled
    obtain ⟨ranges,isRanges⟩ := gets.mpr fun component isComponent =>
      ⟨fun source source' feeds feeds' _ _ => settled.roots component isComponent source source' feeds feeds',
        settled.members component isComponent⟩
    exact ⟨ranges,isRanges,fun name isNode => (fed_iff isRanges isNode).mpr (settled.fed name isNode)⟩

end

/-- Allocations, reads, writes, gets, PHIs and what does not touch a sequence. -/
def Instruction.Supported : Instruction → Prop
  | phi _ | inst .sequenceAlloc | inst (.indexRead _ _) | inst (.indexWrite _ _ _) | inst (.indexGet _ _) |
    inst (.usePhi _) | inst .other => True
  | inst (.seqInsert _ _ _) | inst (.seqInsertSeq _ _ _) | inst (.seqRemove _ _ _) | inst (.seqSwap _ _) |
    inst (.seqSwapWithin _) | inst (.seqCopy _ _ _) => False

def IsIndex (function : Function) (isSequence : Nat → Bool) (value : Value) : Prop :=
  ∃ item ∈ processed function isSequence, ∃ object, item.2.2.indexUse = some (value,object)

def Uses (function : Function) (isSequence : Nat → Bool) (loops : List Loop) (user used : Value) : Prop :=
  ∃ edge ∈ allEdges loops (processed function isSequence), edge.source = user ∧ edge.target = used

theorem Instruction.Supported.propagate {instruction : Instruction} (supported : instruction.Supported)
    {loops : List Loop} {block : Nat} {use : Value × Option Constraint}
    (isUse : use ∈ instruction.collectionUses loops block) : use.2 = some .propagateRange := by
  unfold Instruction.collectionUses at isUse
  split at isUse
  · obtain ⟨value,_,rfl⟩ := List.mem_map.mp isUse
    rfl
  · rw [List.mem_singleton.mp isUse]
  · rw [List.mem_singleton.mp isUse]
  all_goals first | exact supported.elim | exact absurd isUse (by simp)

section
variable {function : Function} {isSequence : Nat → Bool} {loops : List Loop}

theorem processed_subset {item : Item} (isItem : item ∈ processed function isSequence) :
    item ∈ instructions function := by
  rcases List.mem_append.mp isItem with member | member
  · exact (List.mem_filter.mp member).1
  · exact (List.mem_filter.mp member).1

theorem edge_cases {edge : Edge} (isEdge : edge ∈ allEdges loops (processed function isSequence)) :
    ∃ item ∈ processed function isSequence,
      item.2.2.indexUse = some (edge.source,edge.target) ∧ edge.constraint = .propagateRange ∨
      edge.source = .inst item.2.1 ∧ (edge.target,some edge.constraint) ∈ item.2.2.collectionUses loops item.1 := by
  obtain ⟨⟨block,name,instruction⟩,isItem,isEdge⟩ := List.mem_flatMap.mp isEdge
  refine ⟨_,isItem,?_⟩
  unfold edgesOf at isEdge
  dsimp only at isEdge
  split at isEdge
  · rename_i index object isIndexed
    obtain rfl := List.mem_singleton.mp isEdge
    exact .inl ⟨isIndexed,rfl⟩
  · simp only [List.mem_filterMap,Option.map_eq_some_iff] at isEdge
    obtain ⟨⟨used,constraint'⟩,isUse,constraint,rfl,rfl⟩ := isEdge
    exact .inr ⟨rfl,isUse⟩

theorem mem_of_lookup {nodes : List (Value × Option LiveRange)} {value : Value} {range : Option LiveRange}
    (found : nodes.lookup value = some range) : (value,range) ∈ nodes := by
  obtain ⟨before,after,rfl,_⟩ := List.lookup_eq_some_iff.mp found
  simp

theorem Built.evaluable {values : List Value} {graph : Graph} {order : List Component}
    (built : Built (IsIndex function isSequence) values (allEdges loops (processed function isSequence)) graph)
    (isValues : ∀ edge ∈ allEdges loops (processed function isSequence), edge.source ∈ values)
    (supported : ∀ item ∈ instructions function, item.2.2.Supported)
    (typed : ∀ item ∈ processed function isSequence, Typed loops (IsIndex function isSequence) item)
    (condensed : Condensed (graph.nodes.map Prod.fst) graph.Uses order) :
    Evaluable graph (IsIndex function isSequence) order where
  index value isNode isIndex := by
    cases found : graph.nodes.lookup value with
    | none =>
      obtain ⟨node,isThere,rfl⟩ := List.mem_map.mp isNode
      exact absurd (List.lookup_eq_none_iff.mp found node isThere) (by simp)
    | some range =>
      obtain ⟨ofIndex,isRange⟩ := (built.range _ (mem_of_lookup found)).index isIndex
      exact ⟨ofIndex,by simpa [Graph.ranges,found] using isRange⟩
  plain value notIndex := by
    cases found : graph.nodes.lookup value with
    | none => simp [Graph.ranges,found]
    | some range =>
      have isRange := (built.range _ (mem_of_lookup found)).plain notIndex
      simpa [Graph.ranges,found] using isRange
  propagate edge isEdge := by
    obtain ⟨item,isItem,⟨_,isConstraint⟩ | ⟨_,isUse⟩⟩ := edge_cases ((built.edges edge).mp isEdge)
    · exact isConstraint
    · exact Option.some.inj ((supported item (processed_subset isItem)).propagate isUse)
  sources edge isEdge := (built.nodes edge.source).mpr (isValues edge ((built.edges edge).mp isEdge))
  targets edge isEdge := by
    obtain ⟨item,isItem,⟨isIndexed,_⟩ | ⟨_,isUse⟩⟩ := edge_cases ((built.edges edge).mp isEdge)
    · exact ((typed item isItem).index _ _ isIndexed).2
    · exact ((typed item isItem).collections _ isUse).1
  single := built.single
  nodup := condensed.nodup
  all value := (condensed.all value).mp
  topological := condensed.topological

theorem Condensed.congr {nodes nodes' : List Value} {uses : Value → Value → Prop} {order : List Component}
    (condensed : Condensed nodes uses order) (same : ∀ value, value ∈ nodes ↔ value ∈ nodes') :
    Condensed nodes' uses order where
  nodup := condensed.nodup
  all value := (condensed.all value).trans (same value)
  connected component isComponent node isNode other isOther :=
    condensed.connected component isComponent node isNode other ((same other).mpr isOther)
  topological := condensed.topological

theorem Settled.congr {isIndex : Value → Prop} {nodes nodes' : List Value} {uses : Value → Value → Prop}
    {order : List Component} (settled : Settled isIndex uses order nodes)
    (same : ∀ value, value ∈ nodes ↔ value ∈ nodes') : Settled isIndex uses order nodes' :=
  ⟨fun name isNode => settled.fed name ((same _).mpr isNode),settled.roots,settled.members⟩

section
variable {graph : Graph} {order : List Component}
variable (built : Built (IsIndex function isSequence) (nodesOf loops function isSequence)
  (allEdges loops (processed function isSequence)) graph)
include built

theorem Built.uses_eq : graph.Uses = Uses function isSequence loops := by
  ext source target
  rw [Graph.Uses,Graph.hasEdge_iff]
  exact exists_congr fun edge => and_congr_left' (built.edges edge)

theorem Built.condensed_iff : Condensed (graph.nodes.map Prod.fst) graph.Uses order ↔
    Condensed (nodesOf loops function isSequence) (Uses function isSequence loops) order := by
  rw [built.uses_eq]
  exact ⟨fun condensed => condensed.congr built.nodes,
    fun condensed => condensed.congr fun value => (built.nodes value).symm⟩

theorem Built.settled_iff (supported : ∀ item ∈ instructions function, item.2.2.Supported)
    (typed : ∀ item ∈ processed function isSequence, Typed loops (IsIndex function isSequence) item)
    (condensed : Condensed (graph.nodes.map Prod.fst) graph.Uses order) :
    (∃ ranges, evaluate graph order = some ranges ∧
      ∀ name, .inst name ∈ graph.nodes.map Prod.fst → ranges (.inst name) ≠ none) ↔
    Settled (IsIndex function isSequence) (Uses function isSequence loops) order
      (nodesOf loops function isSequence) := by
  have evaluable := built.evaluable (fun edge isEdge => List.mem_append_right _
    (mem_endpoints.mpr ⟨edge,isEdge,.inl rfl⟩)) supported typed condensed
  have settled_iff := evaluable.settled_iff (fun value => (condensed.all value).mpr) fun edge isEdge => by
    obtain ⟨item,isItem,⟨isIndexed,_⟩ | ⟨isName,_⟩⟩ := edge_cases ((built.edges edge).mp isEdge)
    · exact .inl ⟨item,isItem,_,isIndexed⟩
    · exact .inr ⟨_,isName⟩
  rw [settled_iff,built.uses_eq]
  exact ⟨fun settled => settled.congr built.nodes,
    fun settled => settled.congr fun value => (built.nodes value).symm⟩

end

/-- The analysis gets through exactly when every index has a range, no instruction uses a version
twice, and in every order of the components each version is fed by one index. -/
theorem finishes_iff (names : ((instructions function).map fun item => item.2.1).Nodup)
    (supported : ∀ item ∈ instructions function, item.2.2.Supported)
    (typed : ∀ item ∈ processed function isSequence, Typed loops (IsIndex function isSequence) item)
    (plain : ∀ item ∈ sequences function isSequence, ¬ IsIndex function isSequence (.inst item.2.1)) :
    Finishes function isSequence loops ↔
      (∀ item ∈ processed function isSequence, Ready loops item) ∧
      ∀ order, Condensed (nodesOf loops function isSequence) (Uses function isSequence loops) order →
        Settled (IsIndex function isSequence) (Uses function isSequence loops) order
          (nodesOf loops function isSequence) := by
  obtain ⟨gets,builds⟩ := construct_spec names typed plain
  constructor
  · rintro ⟨graph,isGraph,evaluates⟩
    have built := builds graph isGraph
    refine ⟨gets.mp ⟨graph,isGraph⟩,fun order condensed => ?_⟩
    have condensed := built.condensed_iff.mpr condensed
    exact (built.settled_iff supported typed condensed).mp (evaluates order condensed)
  · rintro ⟨ready,settled⟩
    obtain ⟨graph,isGraph⟩ := gets.mpr ready
    have built := builds graph isGraph
    refine ⟨graph,isGraph,fun order condensed => (built.settled_iff supported typed condensed).mpr ?_⟩
    exact settled order (built.condensed_iff.mp condensed)

end

section
variable {isIndex : Value → Prop} {uses : Value → Value → Prop} {order : List Component} {nodes : List Value}

theorem Condensed.members_nil (condensed : Condensed nodes uses order)
    (acyclic : ∀ value, ¬ Relation.TransGen uses value value) {component : Component}
    (isComponent : component ∈ order) : component.members = [] := by
  rw [List.eq_nil_iff_forall_not_mem]
  intro value isMember
  have isNode : value ∈ nodes := (condensed.all value).mp
    (List.mem_flatMap.mpr ⟨component,isComponent,List.mem_cons_of_mem _ isMember⟩)
  obtain ⟨forth,back⟩ := (condensed.connected component isComponent component.root (List.mem_cons_self ..)
    value isNode).mp (List.mem_cons_of_mem _ isMember)
  have nodup := (List.nodup_flatMap.mp condensed.nodup).1 component isComponent
  rcases Relation.reflTransGen_iff_eq_or_transGen.mp forth with rfl | forth
  · exact (List.nodup_cons.mp nodup).1 isMember
  · exact acyclic _ (forth.trans_left back)

theorem Condensed.exists_root (condensed : Condensed nodes uses order)
    (acyclic : ∀ value, ¬ Relation.TransGen uses value value) {value : Value} (isNode : value ∈ nodes) :
    ∃ component ∈ order, component.nodes = [value] ∧ component.root = value := by
  obtain ⟨component,isComponent,member⟩ := List.mem_flatMap.mp ((condensed.all value).mpr isNode)
  have isNodes : component.nodes = [component.root] := by
    rw [Component.nodes,condensed.members_nil acyclic isComponent]
  rw [isNodes,List.mem_singleton] at member
  exact ⟨component,isComponent,member ▸ isNodes,member.symm⟩

theorem Condensed.feeds_iff (condensed : Condensed nodes uses order)
    (acyclic : ∀ value, ¬ Relation.TransGen uses value value)
    (isNode : ∀ source target, uses source target → source ∈ nodes ∧ target ∈ nodes) {source target : Value} :
    Feeds isIndex uses order source target ↔ uses source target := by
  constructor
  · rintro (⟨_,_,_,use⟩ | ⟨_,_,use,_⟩)
    · exact use
    · exact use
  · intro use
    obtain ⟨component,isComponent,isNodes,rfl⟩ := condensed.exists_root acyclic (isNode _ _ use).2
    obtain ⟨other,isOther,_,rfl⟩ := condensed.exists_root acyclic (isNode _ _ use).1
    refine .root isComponent isOther (fun member => ?_) use
    rw [isNodes,List.mem_singleton] at member
    exact acyclic _ (.single (member ▸ use))

theorem Condensed.idxOf_lt (condensed : Condensed nodes uses order)
    (acyclic : ∀ value, ¬ Relation.TransGen uses value value)
    (isNode : ∀ source target, uses source target → source ∈ nodes ∧ target ∈ nodes) {source target : Value}
    (use : uses source target) :
    (order.flatMap Component.nodes).idxOf source < (order.flatMap Component.nodes).idxOf target := by
  obtain ⟨component,isComponent,isNodes,rfl⟩ := condensed.exists_root acyclic (isNode _ _ use).2
  obtain ⟨other,isOther,isNodes',rfl⟩ := condensed.exists_root acyclic (isNode _ _ use).1
  obtain ⟨front,back,isOrder⟩ := List.append_of_mem isComponent
  have isFlat : order.flatMap Component.nodes =
      front.flatMap Component.nodes ++ component.root :: back.flatMap Component.nodes := by
    rw [isOrder,List.flatMap_append,List.flatMap_cons,isNodes,List.singleton_append]
  rw [idxOf_lt_iff _ isFlat condensed.nodup]
  have topological := condensed.topological
  rw [isOrder,List.pairwise_append,List.pairwise_cons] at topological
  rw [isOrder,List.mem_append,List.mem_cons] at isOther
  rcases isOther with isFront | rfl | isBack
  · exact List.mem_flatMap.mpr ⟨other,isFront,by simp [isNodes']⟩
  · exact absurd (.single use) (acyclic _)
  · exact absurd use (topological.2.1.1 other isBack)

/-- Where no version depends on itself, each has one user. -/
theorem Condensed.settled_iff_acyclic (condensed : Condensed nodes uses order)
    (acyclic : ∀ value, ¬ Relation.TransGen uses value value)
    (isNode : ∀ source target, uses source target → source ∈ nodes ∧ target ∈ nodes)
    (sources : ∀ source target, uses source target → isIndex source ∨ ∃ name, source = .inst name) :
    Settled isIndex uses order nodes ↔
      (∀ name, .inst name ∈ nodes → ¬ isIndex (.inst name) → ∃ user, uses user (.inst name)) ∧
      ∀ user user' used, uses user used → uses user' used → user = user' := by
  have feeds_iff {source target : Value} : Feeds isIndex uses order source target ↔ uses source target :=
    condensed.feeds_iff acyclic isNode
  constructor
  · intro settled
    constructor
    · intro name isName notIndex
      obtain ⟨index,isValue,path⟩ := settled.fed name isName
      cases path with
      | refl => exact absurd isValue notIndex
      | tail _ feeds => exact ⟨_,feeds_iff.mp feeds⟩
    · intro user user' used use use'
      obtain ⟨component,isComponent,_,rfl⟩ := condensed.exists_root acyclic (isNode _ _ use).2
      exact settled.roots component isComponent user user' (feeds_iff.mpr use) (feeds_iff.mpr use')
  · rintro ⟨used,single⟩
    have fed (bound : Nat) : ∀ value ∈ nodes, (order.flatMap Component.nodes).idxOf value < bound →
        (isIndex value ∨ ∃ name, value = .inst name) → ∃ index, Fed isIndex uses order index value := by
      induction bound with
      | zero => exact fun _ _ less => absurd less (Nat.not_lt_zero _)
      | succ bound ih =>
        intro value isValue less kind
        by_cases isIndexValue : isIndex value
        · exact ⟨value,isIndexValue,.refl⟩
        · obtain ⟨name,rfl⟩ := kind.resolve_left isIndexValue
          obtain ⟨user,use⟩ := used name isValue isIndexValue
          have earlier := condensed.idxOf_lt acyclic isNode use
          obtain ⟨index,isFed,path⟩ := ih user (isNode _ _ use).1 (by omega) (sources _ _ use)
          exact ⟨index,isFed,path.tail (feeds_iff.mpr use)⟩
    refine ⟨fun name isName => fed _ _ isName (Nat.lt_succ_self _) (.inr ⟨name,rfl⟩),?_,?_⟩
    · intro component _ source source' feeds feeds'
      exact single source source' _ (feeds_iff.mp feeds) (feeds_iff.mp feeds')
    · intro component isComponent value isMember
      rw [condensed.members_nil acyclic isComponent] at isMember
      exact absurd isMember (by simp)

end

/-- One of two sequences is written on one side of a branch, and both are merged and read. -/
def readMerged : Function := [
  ⟨[],[(0,.sequenceAlloc),(1,.sequenceAlloc)],[1,2]⟩,
  ⟨[],[(2,.indexWrite (.argument 0) (.inst 0) [.argument 1])],[2]⟩,
  ⟨[(3,[.inst 2,.inst 1])],[(4,.indexRead (.inst 3) [.constantInt 5])],[]⟩]

def readMergedSequence (name : Nat) : Bool := name < 4

def twoReads : Function := [⟨[],[(0,.sequenceAlloc),(1,.indexRead (.inst 0) [.constantInt 0]),
  (2,.indexRead (.inst 0) [.constantInt 1])],[]⟩]

theorem readMerged_processed : processed readMerged readMergedSequence =
    [(0,0,.inst .sequenceAlloc),(0,1,.inst .sequenceAlloc),
      (1,2,.inst (.indexWrite (.argument 0) (.inst 0) [.argument 1])),(2,3,.phi [.inst 2,.inst 1]),
      (2,4,.inst (.indexRead (.inst 3) [.constantInt 5]))] := rfl

def readMergedUses : List (Value × Value) :=
  [(.inst 2,.inst 0),(.inst 3,.inst 2),(.inst 3,.inst 1),(.constantInt 5,.inst 3)]

theorem readMerged_uses {user used : Value} :
    Uses readMerged readMergedSequence [] user used ↔ (user,used) ∈ readMergedUses := by
  have isEdges : (allEdges [] (processed readMerged readMergedSequence)).map
      (fun edge => (edge.source,edge.target)) = readMergedUses := rfl
  simp [← isEdges,Uses]

theorem readMerged_index {value : Value} :
    IsIndex readMerged readMergedSequence value ↔ value = .constantInt 5 := by
  simp [IsIndex,readMerged_processed,Instruction.indexUse,eq_comm]

theorem readMerged_nodes {value : Value} : value ∈ nodesOf [] readMerged readMergedSequence ↔
    value ∈ [.inst 0,.inst 1,.inst 2,.inst 3,.constantInt 5] := by
  have isNodes : nodesOf [] readMerged readMergedSequence = [.inst 0,.inst 1,.inst 2,.inst 3,.inst 2,.inst 0,
      .inst 3,.inst 2,.inst 3,.inst 1,.constantInt 5,.inst 3] := rfl
  rw [isNodes]
  simp only [List.mem_cons,List.not_mem_nil,or_false]
  tauto

def readMergedRank : Value → Nat
  | .inst name => name
  | _ => 4

theorem readMerged_acyclic (value : Value) :
    ¬ Relation.TransGen (Uses readMerged readMergedSequence []) value value := by
  have less : ∀ user used,Uses readMerged readMergedSequence [] user used →
      readMergedRank used < readMergedRank user := by
    intro user used use
    have all : ∀ pair ∈ readMergedUses,readMergedRank pair.2 < readMergedRank pair.1 := by decide
    exact all _ (readMerged_uses.mp use)
  have descends : ∀ target,Relation.TransGen (Uses readMerged readMergedSequence []) value target →
      readMergedRank target < readMergedRank value := by
    intro target path
    induction path with
    | single use => exact less _ _ use
    | tail _ use ih => exact Nat.lt_trans (less _ _ use) ih
  exact fun cycle => Nat.lt_irrefl _ (descends value cycle)

theorem readMerged_settled {order : List Component}
    (condensed : Condensed (nodesOf [] readMerged readMergedSequence) (Uses readMerged readMergedSequence []) order) :
    Settled (IsIndex readMerged readMergedSequence) (Uses readMerged readMergedSequence []) order
      (nodesOf [] readMerged readMergedSequence) := by
  refine (condensed.settled_iff_acyclic readMerged_acyclic ?_ ?_).mpr ⟨?_,?_⟩
  · intro source target use
    rw [readMerged_nodes,readMerged_nodes]
    have all : ∀ pair ∈ readMergedUses,
        pair.1 ∈ [Value.inst 0,.inst 1,.inst 2,.inst 3,.constantInt 5] ∧
          pair.2 ∈ [Value.inst 0,.inst 1,.inst 2,.inst 3,.constantInt 5] := by decide
    exact all _ (readMerged_uses.mp use)
  · intro source target use
    have edge := readMerged_uses.mp use
    simp only [readMergedUses,List.mem_cons,Prod.mk.injEq,List.not_mem_nil,or_false] at edge
    rcases edge with ⟨rfl,_⟩ | ⟨rfl,_⟩ | ⟨rfl,_⟩ | ⟨rfl,_⟩
    · exact .inr ⟨2,rfl⟩
    · exact .inr ⟨3,rfl⟩
    · exact .inr ⟨3,rfl⟩
    · exact .inl (readMerged_index.mpr rfl)
  · intro name isNode _
    have node := readMerged_nodes.mp isNode
    simp only [List.mem_cons,List.not_mem_nil,or_false] at node
    rcases node with same | same | same | same | same
    · exact ⟨.inst 2,readMerged_uses.mpr (by simp [readMergedUses,same])⟩
    · exact ⟨.inst 3,readMerged_uses.mpr (by simp [readMergedUses,same])⟩
    · exact ⟨.inst 3,readMerged_uses.mpr (by simp [readMergedUses,same])⟩
    · exact ⟨.constantInt 5,readMerged_uses.mpr (by simp [readMergedUses,same])⟩
    · exact absurd same (by simp)
  · intro user user' used use use'
    have all : ∀ pair ∈ readMergedUses,
        ∀ pair' ∈ readMergedUses,
          pair.2 = pair'.2 → pair.1 = pair'.1 := by decide
    exact all _ (readMerged_uses.mp use) _ (readMerged_uses.mp use') rfl

theorem readMerged_typed : ∀ item ∈ processed readMerged readMergedSequence,
    Typed [] (IsIndex readMerged readMergedSequence) item := by
  simp only [readMerged_processed,List.forall_mem_cons,List.not_mem_nil,false_implies,implies_true,and_true]
  refine ⟨⟨?_,?_⟩,⟨?_,?_⟩,⟨?_,?_⟩,⟨?_,?_⟩,⟨?_,?_⟩⟩
  all_goals simp [Instruction.indexUse,Instruction.collectionUses,readMerged_index]

theorem readMerged_ready : ∀ item ∈ processed readMerged readMergedSequence,Ready [] item := by
  simp only [readMerged_processed,List.forall_mem_cons,List.not_mem_nil,false_implies,implies_true,and_true]
  refine ⟨⟨?_,?_,?_⟩,⟨?_,?_,?_⟩,⟨?_,?_,?_⟩,⟨?_,?_,?_⟩,⟨?_,?_,?_⟩⟩
  all_goals simp [Instruction.indexUse,Instruction.collectionUses,analyze]

theorem readMerged_supported : ∀ item ∈ instructions readMerged,item.2.2.Supported := by
  simp [instructions,readMerged,Instruction.Supported]

theorem readMerged_plain : ∀ item ∈ sequences readMerged readMergedSequence,
    ¬ IsIndex readMerged readMergedSequence (.inst item.2.1) :=
  fun _ _ isIndex => absurd (readMerged_index.mp isIndex) (by simp)

theorem readMerged_finishes : Finishes readMerged readMergedSequence [] :=
  (finishes_iff (by decide) readMerged_supported readMerged_typed readMerged_plain).mpr
    ⟨readMerged_ready,fun _ condensed => readMerged_settled condensed⟩

def twoReadsGraph : Graph := ⟨[(.inst 0,none),
    (.constantInt 0,some (.index (.constantInt 0)
      ⟨.constantExpression (.constantInt 0),.constantExpression (.constantInt 0)⟩)),
    (.constantInt 1,some (.index (.constantInt 1)
      ⟨.constantExpression (.constantInt 1),.constantExpression (.constantInt 1)⟩))],
  [⟨.constantInt 0,.inst 0,.propagateRange⟩,⟨.constantInt 1,.inst 0,.propagateRange⟩]⟩

def twoReadsOrder : List Component := [⟨.constantInt 0,[]⟩,⟨.constantInt 1,[]⟩,⟨.inst 0,[]⟩]

theorem twoReads_uses {source target : Value} : twoReadsGraph.hasEdge source target = true ↔
    (source = .constantInt 0 ∨ source = .constantInt 1) ∧ target = .inst 0 := by
  simp only [Graph.hasEdge,twoReadsGraph,List.any_cons,List.any_nil,Bool.or_false,Bool.or_eq_true,decide_eq_true_eq]
  tauto

theorem twoReads_reaches {source target : Value}
    (path : Relation.ReflTransGen (fun source target => twoReadsGraph.hasEdge source target = true) source target) :
    source = target ∨ source ≠ .inst 0 ∧ target = .inst 0 := by
  rcases path.cases_head with rfl | ⟨next,use,_⟩
  · exact .inl rfl
  · rcases path.cases_tail with rfl | ⟨last,_,use'⟩
    · exact .inl rfl
    · obtain ⟨rfl | rfl,_⟩ := twoReads_uses.mp use
      · exact .inr ⟨by simp,(twoReads_uses.mp use').2⟩
      · exact .inr ⟨by simp,(twoReads_uses.mp use').2⟩

theorem twoReads_condensed : Condensed (twoReadsGraph.nodes.map Prod.fst)
    (fun source target => twoReadsGraph.hasEdge source target) twoReadsOrder where
  nodup := by decide
  all value := by
    simp [twoReadsOrder,twoReadsGraph,Component.nodes]
    tauto
  connected component isComponent node isNode other isOther := by
    have single : component.nodes = [component.root] := by
      simp only [twoReadsOrder,List.mem_cons,List.not_mem_nil,or_false] at isComponent
      obtain rfl | rfl | rfl := isComponent <;> rfl
    rw [single,List.mem_singleton] at isNode ⊢
    subst isNode
    constructor
    · rintro rfl
      exact ⟨.refl,.refl⟩
    · rintro ⟨forth,back⟩
      rcases twoReads_reaches forth with same | ⟨notInst,_⟩
      · exact same.symm
      · rcases twoReads_reaches back with same | ⟨_,isInst⟩
        · exact same
        · exact absurd isInst notInst
  topological := by decide

theorem twoReads_not_finishes : ¬ Finishes twoReads (· = 0) [] := by
  rintro ⟨graph,isGraph,evaluates⟩
  have isConstructed : construct twoReads (· = 0) [] = some twoReadsGraph := rfl
  obtain rfl := Option.some.inj (isConstructed.symm.trans isGraph)
  obtain ⟨ranges,isRanges,_⟩ := evaluates twoReadsOrder twoReads_condensed
  have unmerged : evaluate twoReadsGraph twoReadsOrder = none := rfl
  exact absurd (unmerged.symm.trans isRanges) (by simp)

end LiveRangeAnalysis
end RangeAnalysis
end Memoir
