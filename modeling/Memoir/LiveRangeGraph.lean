import Memoir.LiveRangeAnalysis
import Mathlib.Data.List.Nodup

/-! The constraint graph that is constructed, and when its construction gets through. -/
namespace Memoir
namespace RangeAnalysis
namespace LiveRangeAnalysis

abbrev Item := Nat × Nat × Instruction

def edgesOf (loops : List Loop) : Item → List Edge
  | (block,name,instruction) => match instruction.indexUse with
    | some (index,object) => [⟨index,object,.propagateRange⟩]
    | none => (instruction.collectionUses loops block).filterMap fun (used,constraint) =>
      constraint.map fun constraint => ⟨.inst name,used,constraint⟩

structure Ready (loops : List Loop) (item : Item) : Prop where
  indexed : ∀ index object, item.2.2.indexUse = some (index,object) →
    analyze loops item.1 index ≠ none
  copied : ∀ use ∈ item.2.2.collectionUses loops item.1, use.2 ≠ none
  distinct : ((item.2.2.collectionUses loops item.1).map Prod.fst).Nodup

structure Typed (loops : List Loop) (isIndex : Value → Prop) (item : Item) : Prop where
  index : ∀ index object, item.2.2.indexUse = some (index,object) → isIndex index ∧ ¬ isIndex object
  collections : ∀ use ∈ item.2.2.collectionUses loops item.1, ¬ isIndex use.1 ∧ ¬ isIndex (.inst item.2.1)

structure Initial (isIndex : Value → Prop) (value : Value) (range : Option LiveRange) : Prop where
  index : isIndex value → ∃ ofIndex, range = some (.index value ofIndex)
  plain : ¬ isIndex value → range = none

structure Keyed (isIndex : Value → Prop) (values : List Value) (graph : Graph) : Prop where
  keys : (graph.nodes.map Prod.fst).Nodup
  nodes : ∀ value, value ∈ graph.nodes.map Prod.fst ↔ value ∈ values
  range : ∀ node ∈ graph.nodes, Initial isIndex node.1 node.2

structure Built (isIndex : Value → Prop) (values : List Value) (done : List Edge) (graph : Graph) :
    Prop extends Keyed isIndex values graph where
  edges : ∀ edge, edge ∈ graph.edges ↔ edge ∈ done
  single : graph.edges.Pairwise fun edge later => ¬ (edge.source = later.source ∧ edge.target = later.target)

section
variable {isIndex : Value → Prop} {values : List Value} {done : List Edge} {graph after : Graph}
variable {loops : List Loop} {value used user : Value} {item : Item}

theorem Graph.hasEdge_iff {source target : Value} : graph.hasEdge source target = true ↔
    ∃ edge ∈ graph.edges, edge.source = source ∧ edge.target = target := by
  simp [Graph.hasEdge]

theorem Built.empty : Built isIndex [] [] .empty :=
  ⟨⟨.nil,by simp [Graph.empty],by simp [Graph.empty]⟩,by simp [Graph.empty],.nil⟩

theorem addNode_edges (graph : Graph) (value : Value) (range : Option LiveRange) :
    (graph.addNode value range).edges = graph.edges := by
  unfold Graph.addNode
  split_ifs <;> rfl

theorem Keyed.addNode (keyed : Keyed isIndex values graph) {range : Option LiveRange}
    (isRange : Initial isIndex value range) :
    Keyed isIndex (value :: values) (graph.addNode value range) := by
  unfold Graph.addNode
  split_ifs with there
  · refine ⟨keyed.keys,fun value' => ?_,keyed.range⟩
    rw [keyed.nodes,List.mem_cons]
    exact ⟨.inr,fun either => either.elim (fun same => same ▸ (keyed.nodes value).mp there) id⟩
  · refine ⟨?_,fun value' => ?_,?_⟩
    · rw [List.map_append,List.map_singleton,List.nodup_append]
      refine ⟨keyed.keys,by simp,fun first isFirst second isSecond same => ?_⟩
      obtain rfl := List.mem_singleton.mp isSecond
      exact there (same ▸ isFirst)
    · rw [List.map_append,List.mem_append,keyed.nodes,List.mem_cons,or_comm]
      simp
    · intro node member
      rcases List.mem_append.mp member with old | new
      · exact keyed.range node old
      · obtain rfl := List.mem_singleton.mp new
        exact isRange

theorem Built.addNode (built : Built isIndex values done graph) {range : Option LiveRange}
    (isRange : Initial isIndex value range) :
    Built isIndex (value :: values) done (graph.addNode value range) := by
  refine ⟨built.toKeyed.addNode isRange,?_,?_⟩
  · rw [addNode_edges]
    exact built.edges
  · rw [addNode_edges]
    exact built.single

theorem Initial.none (plain : ¬ isIndex value) : Initial isIndex value none :=
  ⟨fun isValue => absurd isValue plain,fun _ => rfl⟩

/-- An edge that is new, or that is there as it is. -/
theorem Built.addEdge (built : Built isIndex values done graph) {edge : Edge}
    (same : ∀ other ∈ done, other.source = edge.source → other.target = edge.target → other = edge) :
    Built isIndex values (edge :: done) (graph.addEdge edge) := by
  unfold Graph.addEdge
  split_ifs with there
  · obtain ⟨other,isOther,isSource,isTarget⟩ := Graph.hasEdge_iff.mp there
    obtain rfl := same other ((built.edges other).mp isOther) isSource isTarget
    refine ⟨built.toKeyed,fun edge' => ?_,built.single⟩
    rw [built.edges,List.mem_cons]
    exact ⟨.inr,fun either => either.elim (fun same => same ▸ (built.edges other).mp isOther) id⟩
  · refine ⟨⟨built.keys,built.nodes,built.range⟩,fun edge' => ?_,?_⟩
    · rw [List.mem_append,built.edges,List.mem_singleton,List.mem_cons,or_comm]
    · rw [List.pairwise_append]
      refine ⟨built.single,List.pairwise_singleton _ _,fun first isFirst second isSecond both => ?_⟩
      obtain rfl := List.mem_singleton.mp isSecond
      exact there (Graph.hasEdge_iff.mpr ⟨first,isFirst,both⟩)

theorem Built.addIndexUse (built : Built isIndex values done graph) {index object : Value}
    (isValue : isIndex index) (plain : ¬ isIndex object) (range : ValueRange)
    (same : ∀ edge ∈ done, isIndex edge.source → edge.constraint = .propagateRange) :
    Built isIndex (object :: index :: values) (⟨index,object,.propagateRange⟩ :: done)
      (graph.addIndexUseToGraph index object range) := by
  apply ((built.addNode ⟨fun _ => ⟨range,rfl⟩,absurd isValue⟩).addNode (Initial.none plain)).addEdge
  rintro ⟨source,target,constraint⟩ isEdge rfl rfl
  have isConstraint : constraint = .propagateRange := same _ isEdge isValue
  rw [isConstraint]

/-- A use fails where its edge is there. -/
theorem Built.addUse (built : Built isIndex values done graph) (plain : ¬ isIndex used)
    (plain' : ¬ isIndex user) (constraint : Constraint) :
    ((∃ after, graph.addUseToGraph used user constraint = some after) ↔
      ∀ edge ∈ done, ¬ (edge.source = user ∧ edge.target = used)) ∧
    ∀ after, graph.addUseToGraph used user constraint = some after →
      Built isIndex (user :: used :: values) (⟨user,used,constraint⟩ :: done) after := by
  have built' := (built.addNode (Initial.none plain)).addNode (Initial.none plain')
  unfold Graph.addUseToGraph
  dsimp only
  split_ifs with there
  · obtain ⟨edge,isEdge,same⟩ := Graph.hasEdge_iff.mp there
    refine ⟨iff_of_false (by simp) fun new => new edge ((built'.edges edge).mp isEdge) same,by simp⟩
  · have new (edge : Edge) (isEdge : edge ∈ done) : ¬ (edge.source = user ∧ edge.target = used) :=
      fun same => there (Graph.hasEdge_iff.mpr ⟨edge,(built'.edges edge).mpr isEdge,same⟩)
    refine ⟨iff_of_true ⟨_,rfl⟩ new,fun after isAfter => ?_⟩
    obtain rfl := Option.some.inj isAfter
    exact built'.addEdge fun other isOther isSource isTarget => absurd ⟨isSource,isTarget⟩ (new other isOther)

theorem Built.congr {values' : List Value} {done' : List Edge} (built : Built isIndex values done graph)
    (sameValues : ∀ value, value ∈ values ↔ value ∈ values') (sameEdges : ∀ edge, edge ∈ done ↔ edge ∈ done') :
    Built isIndex values' done' graph :=
  ⟨⟨built.keys,fun value => (built.nodes value).trans (sameValues value),built.range⟩,
    fun edge => (built.edges edge).trans (sameEdges edge),built.single⟩

def endpoints (edges : List Edge) : List Value := edges.flatMap fun edge => [edge.source,edge.target]

theorem mem_endpoints {edges : List Edge} : value ∈ endpoints edges ↔
    ∃ edge ∈ edges, value = edge.source ∨ value = edge.target := by
  simp [endpoints]

def useEdges (user : Value) (uses : List (Value × Option Constraint)) : List Edge :=
  uses.filterMap fun (used,constraint) => constraint.map fun constraint => ⟨user,used,constraint⟩

theorem Built.collections (plain : ¬ isIndex user) (uses : List (Value × Option Constraint))
    (typed : ∀ use ∈ uses, ¬ isIndex use.1) (built : Built isIndex values done graph) :
    ((∃ after, uses.foldlM (fun graph (used,constraint) => do
        graph.addUseToGraph used user (← constraint)) graph = some after) ↔
      (∀ use ∈ uses, use.2 ≠ none) ∧ (uses.map Prod.fst).Nodup ∧
        ∀ use ∈ uses, ∀ edge ∈ done, ¬ (edge.source = user ∧ edge.target = use.1)) ∧
    ∀ after, uses.foldlM (fun graph (used,constraint) => do
        graph.addUseToGraph used user (← constraint)) graph = some after →
      Built isIndex (values ++ endpoints (useEdges user uses)) (done ++ useEdges user uses) after := by
  induction uses generalizing graph values done with
  | nil =>
    refine ⟨by simp,fun after isAfter => ?_⟩
    obtain rfl := Option.some.inj isAfter
    exact built.congr (by simp [useEdges,endpoints]) (by simp [useEdges])
  | cons use uses ih =>
    obtain ⟨used,constraint⟩ := use
    cases constraint with
    | none => exact ⟨by simp,by simp⟩
    | some constraint =>
      obtain ⟨gets,builds⟩ := built.addUse (typed (used,some constraint) (by simp)) plain constraint
      simp only [List.foldlM_cons,Option.bind_eq_bind,Option.bind_some,Option.bind_eq_some_iff]
      constructor
      · constructor
        · rintro ⟨after,first,isFirst,rest⟩
          have new := gets.mp ⟨first,isFirst⟩
          obtain ⟨known,distinct,news⟩ := (ih (fun use member => typed use (by simp [member]))
            (builds first isFirst)).1.mp ⟨after,rest⟩
          refine ⟨by simpa using known,?_,?_⟩
          · rw [List.map_cons,List.nodup_cons]
            refine ⟨fun member => ?_,distinct⟩
            obtain ⟨use,isUse,same⟩ := List.mem_map.mp member
            exact news use isUse ⟨user,used,constraint⟩ (by simp) ⟨rfl,same.symm⟩
          · intro use isUse edge isEdge
            rcases List.mem_cons.mp isUse with rfl | isUse
            · exact new edge isEdge
            · exact news use isUse edge (by simp [isEdge])
        · rintro ⟨known,distinct,news⟩
          obtain ⟨first,isFirst⟩ := gets.mpr (news (used,some constraint) (by simp))
          rw [List.map_cons,List.nodup_cons] at distinct
          have rest := (ih (fun use member => typed use (by simp [member]))
            (builds first isFirst)).1.mpr ⟨fun use member => known use (by simp [member]),distinct.2,?_⟩
          · obtain ⟨after,isAfter⟩ := rest
            exact ⟨after,first,isFirst,isAfter⟩
          · intro use isUse edge isEdge
            rcases List.mem_cons.mp isEdge with rfl | isEdge
            · exact fun same => distinct.1 (List.mem_map.mpr ⟨use,isUse,same.2.symm⟩)
            · exact news use (by simp [isUse]) edge isEdge
      · rintro after ⟨first,isFirst,rest⟩
        have built' := (ih (fun use member => typed use (by simp [member])) (builds first isFirst)).2 after rest
        refine built'.congr (fun value => ?_) fun edge => ?_
        · simp only [useEdges,endpoints,List.filterMap_cons,Option.map_some,List.flatMap_cons,
            List.mem_append,List.mem_cons,List.not_mem_nil,or_false]
          tauto
        · simp only [useEdges,List.filterMap_cons,Option.map_some,List.mem_append,List.mem_cons]
          tauto

theorem collectionUses_of_index {instruction : Instruction} {block : Nat} {use : Value × Value}
    (isIndexed : instruction.indexUse = some use) : instruction.collectionUses loops block = [] := by
  unfold Instruction.indexUse at isIndexed
  split at isIndexed
  · rfl
  · rfl
  · exact absurd isIndexed (by simp)

theorem Built.instruction (built : Built isIndex values done graph) (typed : Typed loops isIndex item)
    (plain : ∀ edge ∈ done, isIndex edge.source → edge.constraint = .propagateRange)
    (fresh : ∀ edge ∈ done, ¬ isIndex edge.source → edge.source ≠ .inst item.2.1) :
    ((∃ after, addUsesToGraph loops graph item = some after) ↔ Ready loops item) ∧
    ∀ after, addUsesToGraph loops graph item = some after →
      Built isIndex (values ++ endpoints (edgesOf loops item)) (done ++ edgesOf loops item) after := by
  obtain ⟨block,name,instruction⟩ := item
  unfold addUsesToGraph edgesOf
  dsimp only
  cases isIndexed : instruction.indexUse with
  | some use =>
    obtain ⟨index,object⟩ := use
    obtain ⟨isValue,isObject⟩ := typed.index index object isIndexed
    cases isRange : analyze loops block index with
    | none =>
      simp only [isRange,Option.bind_eq_bind,Option.bind_none]
      refine ⟨iff_of_false (by simp) fun ready => ready.indexed index object isIndexed isRange,by simp⟩
    | some range =>
      simp only [isRange,Option.bind_eq_bind,Option.bind_some]
      refine ⟨iff_of_true ⟨_,rfl⟩ ⟨?_,?_,?_⟩,fun after isAfter => ?_⟩
      · rintro index' object' isIndexed'
        obtain ⟨rfl,rfl⟩ := Prod.mk.inj (Option.some.inj (isIndexed.symm.trans isIndexed'))
        simp [isRange]
      · simp [collectionUses_of_index isIndexed]
      · simp [collectionUses_of_index isIndexed]
      · obtain rfl := Option.some.inj isAfter
        refine (built.addIndexUse isValue isObject range plain).congr (fun value => ?_) fun edge => ?_
        · simp only [endpoints,List.flatMap_cons,List.flatMap_nil,List.mem_append,List.mem_cons,
            List.not_mem_nil,or_false]
          tauto
        · simp only [List.mem_append,List.mem_cons,List.not_mem_nil,or_false]
          tauto
  | none =>
    by_cases idle : instruction.collectionUses loops block = []
    · rw [idle]
      refine ⟨iff_of_true ⟨graph,rfl⟩ ⟨by simp [isIndexed],by simp [idle],by simp [idle]⟩,?_⟩
      rintro after isAfter
      obtain rfl := Option.some.inj isAfter
      exact built.congr (by simp [endpoints]) (by simp)
    · obtain ⟨first,isFirst⟩ := List.exists_mem_of_ne_nil _ idle
      have notIndex := (typed.collections first isFirst).2
      obtain ⟨gets,builds⟩ := built.collections notIndex (instruction.collectionUses loops block)
        fun use member => (typed.collections use member).1
      refine ⟨gets.trans ⟨?_,?_⟩,builds⟩
      · rintro ⟨known,distinct,_⟩
        exact ⟨by simp [isIndexed],known,distinct⟩
      · rintro ⟨_,known,distinct⟩
        refine ⟨known,distinct,fun use _ edge isEdge same => ?_⟩
        by_cases isIndexSource : isIndex edge.source
        · exact notIndex (same.1 ▸ isIndexSource)
        · exact fresh edge isEdge isIndexSource same.1

theorem edgesOf_source (typed : Typed loops isIndex item) {edge : Edge} (isEdge : edge ∈ edgesOf loops item) :
    isIndex edge.source ∧ edge.constraint = .propagateRange ∨
      ¬ isIndex edge.source ∧ edge.source = .inst item.2.1 := by
  unfold edgesOf at isEdge
  split at isEdge
  rename_i block name instruction
  split at isEdge
  · rename_i index object isIndexed
    obtain rfl := List.mem_singleton.mp isEdge
    exact .inl ⟨(typed.index index object isIndexed).1,rfl⟩
  · simp only [List.mem_filterMap,Option.map_eq_some_iff] at isEdge
    obtain ⟨use,isUse,constraint,_,rfl⟩ := isEdge
    exact .inr ⟨(typed.collections use isUse).2,rfl⟩

def allEdges (loops : List Loop) (items : List Item) : List Edge := items.flatMap (edgesOf loops)

/-- Some instructions, each after something that adds nodes only. -/
theorem Built.fold (before : Graph → Item → Graph) (extra : Item → List Value) (items : List Item)
    (adds : ∀ item ∈ items, ∀ values done graph, Built isIndex values done graph →
      Built isIndex (values ++ extra item) done (before graph item))
    (typed : ∀ item ∈ items, Typed loops isIndex item)
    (names : (items.map fun item => item.2.1).Nodup) (built : Built isIndex values done graph)
    (plain : ∀ edge ∈ done, isIndex edge.source → edge.constraint = .propagateRange)
    (fresh : ∀ edge ∈ done, ¬ isIndex edge.source → ∀ item ∈ items, edge.source ≠ .inst item.2.1) :
    ((∃ after, items.foldlM (fun graph item => addUsesToGraph loops (before graph item) item) graph =
        some after) ↔ ∀ item ∈ items, Ready loops item) ∧
    ∀ after, items.foldlM (fun graph item => addUsesToGraph loops (before graph item) item) graph =
        some after →
      Built isIndex (values ++ items.flatMap extra ++ endpoints (allEdges loops items))
        (done ++ allEdges loops items) after := by
  induction items generalizing graph values done with
  | nil =>
    refine ⟨iff_of_true ⟨graph,rfl⟩ (by simp),fun after isAfter => ?_⟩
    obtain rfl := Option.some.inj isAfter
    exact built.congr (by simp [allEdges,endpoints]) (by simp [allEdges])
  | cons item items ih =>
    have isTyped := typed item (by simp)
    obtain ⟨gets,builds⟩ := (adds item (by simp) _ _ _ built).instruction isTyped plain
      fun edge isEdge notIndex => fresh edge isEdge notIndex item (by simp)
    rw [List.map_cons,List.nodup_cons] at names
    have rest {middle : Graph} (isMiddle : addUsesToGraph loops (before graph item) item = some middle) :=
      ih (fun other member => adds other (by simp [member]))
        (fun other member => typed other (by simp [member])) names.2 (builds middle isMiddle)
        (fun edge isEdge isIndexSource => (List.mem_append.mp isEdge).elim
          (fun old => plain edge old isIndexSource)
          fun new => (edgesOf_source isTyped new).elim (·.2) fun other => absurd isIndexSource other.1)
        (fun edge isEdge notIndex other isOther same => (List.mem_append.mp isEdge).elim
          (fun old => fresh edge old notIndex other (by simp [isOther]) same)
          fun new => (edgesOf_source isTyped new).elim (fun other => notIndex other.1) fun isName =>
            names.1 (List.mem_map.mpr ⟨other,isOther,(Value.inst.inj (isName.2.symm.trans same)).symm⟩))
    simp only [List.foldlM_cons,Option.bind_eq_bind,Option.bind_eq_some_iff]
    constructor
    · constructor
      · rintro ⟨after,middle,isMiddle,isAfter⟩
        exact List.forall_mem_cons.mpr ⟨gets.mp ⟨middle,isMiddle⟩,(rest isMiddle).1.mp ⟨after,isAfter⟩⟩
      · intro ready
        obtain ⟨middle,isMiddle⟩ := gets.mpr (ready item (by simp))
        obtain ⟨after,isAfter⟩ := (rest isMiddle).1.mpr fun other member => ready other (by simp [member])
        exact ⟨after,middle,isMiddle,isAfter⟩
    · rintro after ⟨middle,isMiddle,isAfter⟩
      refine ((rest isMiddle).2 after isAfter).congr (fun value => ?_) fun edge => ?_
      · simp only [allEdges,endpoints,List.flatMap_cons,List.flatMap_append,List.mem_append]
        tauto
      · simp only [allEdges,List.flatMap_cons,List.mem_append,or_assoc]

/-- The instructions whose uses are added to the graph. -/
def processed (function : Function) (isSequence : Nat → Bool) : List Item :=
  sequences function isSequence ++ users function isSequence

theorem processed_names {function : Function} {isSequence : Nat → Bool}
    (names : ((instructions function).map fun item => item.2.1).Nodup) :
    ((processed function isSequence).map fun item => item.2.1).Nodup := by
  rw [processed,List.map_append,List.nodup_append]
  refine ⟨names.sublist (List.filter_sublist.map _),names.sublist (List.filter_sublist.map _),?_⟩
  intro name isSeq name' isUser same
  obtain ⟨item,isItem,rfl⟩ := List.mem_map.mp isSeq
  obtain ⟨item',isItem',rfl⟩ := List.mem_map.mp isUser
  have isSeq := (List.mem_filter.mp isItem).2
  have notSeq := (List.mem_filter.mp isItem').2
  simp only [Bool.and_eq_true,Bool.not_eq_true'] at notSeq
  dsimp only at isSeq
  rw [same,notSeq.1] at isSeq
  exact absurd isSeq (by simp)

def nodesOf (loops : List Loop) (function : Function) (isSequence : Nat → Bool) : List Value :=
  (sequences function isSequence).map (fun item => .inst item.2.1) ++
    endpoints (allEdges loops (processed function isSequence))

theorem construct_spec {function : Function} {isSequence : Nat → Bool}
    (names : ((instructions function).map fun item => item.2.1).Nodup)
    (typed : ∀ item ∈ processed function isSequence, Typed loops isIndex item)
    (plain : ∀ item ∈ sequences function isSequence, ¬ isIndex (.inst item.2.1)) :
    ((∃ graph, construct function isSequence loops = some graph) ↔
      ∀ item ∈ processed function isSequence, Ready loops item) ∧
    ∀ graph, construct function isSequence loops = some graph →
      Built isIndex (nodesOf loops function isSequence) (allEdges loops (processed function isSequence)) graph := by
  have distinct : ((processed function isSequence).map fun item => item.2.1).Nodup := processed_names names
  rw [processed,List.map_append,List.nodup_append] at distinct
  obtain ⟨ofSequences,ofUsers,apart⟩ := distinct
  obtain ⟨gets,builds⟩ := Built.fold (fun graph item => graph.addNode (.inst item.2.1) none)
    (fun item => [.inst item.2.1]) (sequences function isSequence)
    (fun item member values done graph built =>
      (built.addNode (Initial.none (plain item member))).congr (by simp [or_comm]) (by simp))
    (fun item member => typed item (List.mem_append_left _ member)) ofSequences Built.empty
    (by simp) (by simp)
  have source {edge : Edge} (isEdge : edge ∈ [] ++ allEdges loops (sequences function isSequence)) :
      ∃ item ∈ sequences function isSequence, isIndex edge.source ∧ edge.constraint = .propagateRange ∨
        ¬ isIndex edge.source ∧ edge.source = .inst item.2.1 := by
    obtain ⟨item,isItem,isEdge⟩ := List.mem_flatMap.mp isEdge
    exact ⟨item,isItem,edgesOf_source (typed item (List.mem_append_left _ isItem)) isEdge⟩
  have rest {middle : Graph} (isMiddle : (sequences function isSequence).foldlM (fun graph item =>
      addUsesToGraph loops (graph.addNode (.inst item.2.1) none) item) .empty = some middle) :=
    Built.fold (fun graph _ => graph) (fun _ => []) (users function isSequence)
      (fun item _ values done graph built => built.congr (by simp) (by simp))
      (fun item member => typed item (List.mem_append_right _ member)) ofUsers (builds middle isMiddle)
      (fun edge isEdge isIndexSource => by
        obtain ⟨_,_,indexed | plain⟩ := source isEdge
        · exact indexed.2
        · exact absurd isIndexSource plain.1)
      (fun edge isEdge notIndex user isUser same => by
        obtain ⟨item,isItem,indexed | isName⟩ := source isEdge
        · exact notIndex indexed.1
        · exact apart _ (List.mem_map_of_mem isItem) _ (List.mem_map_of_mem isUser)
            (Value.inst.inj (isName.2.symm.trans same)))
  unfold construct
  simp only [Option.bind_eq_bind,Option.bind_eq_some_iff]
  constructor
  · rw [processed,List.forall_mem_append]
    constructor
    · rintro ⟨graph,middle,isMiddle,isGraph⟩
      exact ⟨gets.mp ⟨middle,isMiddle⟩,(rest isMiddle).1.mp ⟨graph,isGraph⟩⟩
    · rintro ⟨ready,ready'⟩
      obtain ⟨middle,isMiddle⟩ := gets.mpr ready
      obtain ⟨graph,isGraph⟩ := (rest isMiddle).1.mpr ready'
      exact ⟨graph,middle,isMiddle,isGraph⟩
  · rintro graph ⟨middle,isMiddle,isGraph⟩
    refine ((rest isMiddle).2 graph isGraph).congr (fun value => ?_) fun edge => ?_
    · simp only [nodesOf,processed,allEdges,endpoints,List.flatMap_append,List.mem_append,List.mem_flatMap,
        List.mem_map,List.mem_singleton,List.not_mem_nil,List.nil_append]
      grind
    · simp only [processed,allEdges,List.flatMap_append,List.nil_append]

end

end LiveRangeAnalysis
end RangeAnalysis
end Memoir
