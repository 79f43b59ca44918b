import Memoir.ComponentOrders
import Memoir.LiveRangeFinishes
import Mathlib.Data.Finset.Card
import Mathlib.Data.Finset.Dedup

/-! What live-range analysis finds when it gets through in every order of the components: a version can
be read at one index only, and its range is that of this index. -/
namespace Memoir
namespace RangeAnalysis
namespace LiveRangeAnalysis
open ComponentOrders

section
variable {isIndex : Value → Prop} {uses : Value → Value → Prop} {nodes : List Value}
variable {order : List Component} {component : Component} {source target index value : Value}

/-- A topological order, also of the uses by other nodes than the roots, whose roots come first in a list. -/
structure Rooted (isFirst : List Value) (nodes : List Value) (uses : Value → Value → Prop) (order : List Component) :
    Prop extends Condensed nodes uses order where
  first : ∀ component ∈ order,First uses isFirst component.root
  sorted : order.Pairwise fun component later => ¬ Relation.ReflTransGen uses later.root component.root

/-- A node is the root of its component if no other of the picked ones is in it. -/
theorem Rooted.root {picked : List Value} (rooted : Rooted (picked ++ nodes) nodes uses order) (value : Value)
    (isPicked : value ∈ picked) (alone : ∀ other ∈ picked,Mutual uses value other → other = value)
    (isNode : value ∈ nodes) :
    ∃ component ∈ order,component.root = value := by
  obtain ⟨component,isComponent,member⟩ := List.mem_flatMap.mp ((rooted.all value).mpr isNode)
  refine ⟨component,isComponent,?_⟩
  have same : Mutual uses component.root value := (rooted.connected component isComponent component.root
    (List.mem_cons_self ..) value isNode).mp member
  obtain ⟨before,after,isList,none⟩ := rooted.first component isComponent
  by_cases early : component.root ∈ picked
  · exact alone _ early same.symm
  · rcases List.append_eq_append_iff.mp isList with ⟨middle,isBefore,_⟩ | ⟨middle,isBefore,isAfter⟩
    · exact absurd same (none value (by simp [isBefore,isPicked]))
    · cases middle with
      | nil =>
        rw [isBefore,List.append_nil] at isPicked
        exact absurd same (none value isPicked)
      | cons head middle =>
        obtain rfl := (List.cons.inj isAfter).1
        exact absurd (by simp [isBefore]) early

variable {isFirst : List Value}

theorem Rooted.mutual (rooted : Rooted isFirst nodes uses order) (isComponent : component ∈ order)
    (member : source ∈ component.nodes) (isNode : target ∈ nodes) :
    target ∈ component.nodes ↔ Mutual uses source target :=
  rooted.connected component isComponent source member target isNode

/-- A use by another component is earlier. -/
theorem Rooted.early (rooted : Rooted isFirst nodes uses order) (isSource : source ∈ nodes)
    (isTarget : target ∈ nodes) (use : uses source target) (outside : ¬ Mutual uses source target) :
    (order.flatMap Component.nodes).idxOf source < (order.flatMap Component.nodes).idxOf target := by
  obtain ⟨component,isComponent,member⟩ := List.mem_flatMap.mp ((rooted.all target).mpr isTarget)
  obtain ⟨other,isOther,member'⟩ := List.mem_flatMap.mp ((rooted.all source).mpr isSource)
  obtain ⟨front,back,isOrder⟩ := List.append_of_mem isComponent
  obtain ⟨before,after,isNodes⟩ := List.append_of_mem member
  have isFlat : order.flatMap Component.nodes =
      (front.flatMap Component.nodes ++ before) ++ target :: (after ++ back.flatMap Component.nodes) := by
    simp [isOrder,isNodes]
  rw [idxOf_lt_iff source isFlat rooted.nodup,List.mem_append]
  have sorted := rooted.sorted
  rw [isOrder,List.pairwise_append,List.pairwise_cons] at sorted
  rw [isOrder,List.mem_append,List.mem_cons] at isOther
  rcases isOther with isFront | rfl | isBack
  · exact .inl (List.mem_flatMap.mpr ⟨other,isFront,member'⟩)
  · exact absurd ((rooted.mutual isComponent member' isTarget).mp member) outside
  · have isOther : other ∈ order := by simp [isOrder,isBack]
    have toSource := (rooted.mutual isOther (List.mem_cons_self ..) isSource).mp member'
    have isRoot := (rooted.all component.root).mp (List.mem_flatMap.mpr ⟨component,isComponent,List.mem_cons_self ..⟩)
    have toRoot := (rooted.mutual isComponent member isRoot).mp (List.mem_cons_self ..)
    exact absurd ((toSource.1.tail use).trans toRoot.1) (sorted.2.1.1 other isBack)

end

section
variable (isIndex : Value → Prop) (nodes : List Value) (uses : Value → Value → Prop)

/-- The uses are among the nodes, by indices and by instructions, and no index is used. -/
structure Plain : Prop where
  isNode : ∀ source target,uses source target → source ∈ nodes ∧ target ∈ nodes
  sources : ∀ source target,uses source target → isIndex source ∨ ∃ name,source = .inst name
  targets : ∀ source target,uses source target → ¬ isIndex target

/-- An access at an index may read what a version holds. -/
def Observes (index value : Value) : Prop := isIndex index ∧ Relation.ReflTransGen uses index value

end

section
variable {isIndex : Value → Prop} {nodes : List Value} {uses : Value → Value → Prop} {order : List Component}
variable {first second source source' index index' value : Value}

theorem Feeds.isUse (feeds : Feeds isIndex uses order source value) : uses source value := by
  cases feeds with
  | root _ _ _ use => exact use
  | member _ _ use _ => exact use

theorem Fed.observes (fed : Fed isIndex uses order index value) : Observes isIndex uses index value :=
  ⟨fed.1,Relation.ReflTransGen.mono (fun _ _ => Feeds.isUse) _ _ fed.2⟩

theorem Observes.eq (plain : Plain isIndex nodes uses) (observes : Observes isIndex uses index value)
    (isValue : isIndex value) : index = value := by
  obtain ⟨_,path⟩ := observes
  cases path with
  | refl => rfl
  | tail _ use => exact absurd isValue (plain.targets _ _ use)

/-- What a version is used by begins outside of its component. -/
theorem Observes.entered (plain : Plain isIndex nodes uses) (observes : Observes isIndex uses index value)
    (notIndex : ¬ isIndex value) :
    ∃ source entry,uses source entry ∧ ¬ Mutual uses source entry ∧ Mutual uses entry value ∧
      Observes isIndex uses index source := by
  obtain ⟨isValue,path⟩ := observes
  induction path with
  | refl => exact absurd isValue notIndex
  | @tail middle value path use ih =>
    by_cases same : Mutual uses middle value
    · have notMiddle : ¬ isIndex middle := by
        intro isMiddle
        cases same.2 with
        | refl => exact notIndex isMiddle
        | tail _ use' => exact plain.targets _ _ use' isMiddle
      obtain ⟨source,entry,isUse,outside,inside,observed⟩ := ih notMiddle
      exact ⟨source,entry,isUse,outside,inside.trans same,observed⟩
    · exact ⟨middle,value,use,same,.refl value,isValue,path⟩

variable (plain : Plain isIndex nodes uses)
  (settled : ∀ order,Condensed nodes uses order → Settled isIndex uses order nodes)
include plain settled

end

section
variable {function : Function} {isSequence : Nat → Bool} {loops : List Loop} {graph : Graph}

/-- A function of allocations, accesses and PHIs whose indices are no sequences. -/
structure Sequential (function : Function) (isSequence : Nat → Bool) (loops : List Loop) : Prop where
  names : ((instructions function).map fun item => item.2.1).Nodup
  supported : ∀ item ∈ instructions function,item.2.2.Supported
  typed : ∀ item ∈ processed function isSequence,Typed loops (IsIndex function isSequence) item
  plain : ∀ item ∈ sequences function isSequence,¬ IsIndex function isSequence (.inst item.2.1)

structure Constructed (function : Function) (isSequence : Nat → Bool) (loops : List Loop) (graph : Graph) : Prop where
  plain : Plain (IsIndex function isSequence) (graph.nodes.map Prod.fst) graph.Uses
  evaluable : ∀ order,Condensed (graph.nodes.map Prod.fst) graph.Uses order →
    Evaluable graph (IsIndex function isSequence) order
  uses : ∀ user used,graph.Uses user used ↔ Uses function isSequence loops user used

theorem Sequential.constructed (sequential : Sequential function isSequence loops)
    (isGraph : construct function isSequence loops = some graph) : Constructed function isSequence loops graph := by
  have built := (construct_spec sequential.names sequential.typed sequential.plain).2 graph isGraph
  have evaluable (order : List Component) (condensed : Condensed (graph.nodes.map Prod.fst) graph.Uses order) :=
    built.evaluable (fun edge isEdge => List.mem_append_right _ (mem_endpoints.mpr ⟨edge,isEdge,.inl rfl⟩))
      sequential.supported sequential.typed condensed
  have isUse (user used : Value) : graph.Uses user used ↔ Uses function isSequence loops user used := by
    rw [built.uses_eq]
  refine ⟨⟨fun user used use => ?_,fun user used use => ?_,fun user used use => ?_⟩,evaluable,isUse⟩
  · obtain ⟨edge,isEdge,rfl,rfl⟩ := (isUse _ _).mp use
    rw [built.nodes,built.nodes]
    exact ⟨List.mem_append_right _ (mem_endpoints.mpr ⟨edge,isEdge,.inl rfl⟩),
      List.mem_append_right _ (mem_endpoints.mpr ⟨edge,isEdge,.inr rfl⟩)⟩
  · obtain ⟨edge,isEdge,rfl,rfl⟩ := (isUse _ _).mp use
    obtain ⟨item,isItem,⟨isIndexed,_⟩ | ⟨isName,_⟩⟩ := edge_cases isEdge
    · exact .inl ⟨item,isItem,_,isIndexed⟩
    · exact .inr ⟨_,isName⟩
  · obtain ⟨edge,isEdge,rfl,rfl⟩ := (isUse _ _).mp use
    obtain ⟨item,isItem,⟨isIndexed,_⟩ | ⟨_,isUsed⟩⟩ := edge_cases isEdge
    · exact ((sequential.typed item isItem).index _ _ isIndexed).2
    · exact ((sequential.typed item isItem).collections _ isUsed).1

theorem Constructed.settled_iff (constructed : Constructed function isSequence loops graph) {order : List Component}
    (condensed : Condensed (graph.nodes.map Prod.fst) graph.Uses order) :
    (∃ ranges,evaluate graph order = some ranges ∧
      ∀ name,.inst name ∈ graph.nodes.map Prod.fst → ranges (.inst name) ≠ none) ↔
    Settled (IsIndex function isSequence) graph.Uses order (graph.nodes.map Prod.fst) :=
  (constructed.evaluable order condensed).settled_iff (fun value => (condensed.all value).mpr) fun edge isEdge =>
    constructed.plain.sources _ _ (Graph.hasEdge_iff.mpr ⟨edge,isEdge,rfl,rfl⟩)

end

end LiveRangeAnalysis
end RangeAnalysis
end Memoir
