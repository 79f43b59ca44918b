import Memoir.RangeAnalysis

/-! Live-range analysis: the constraint graph over the sequences and indices of an SSA function, its
evaluation over the strongly connected components, and the ranges that dead-element elimination
dereferences. -/
namespace Memoir
namespace RangeAnalysis
namespace LiveRangeAnalysis

inductive Instruction
  | phi (incoming : List Value)
  | inst (inst : Inst)

def instructions (function : Function) : List (Nat × Nat × Instruction) :=
  function.zipIdx.flatMap fun (basicBlock,block) =>
    basicBlock.phis.map (fun (name,incoming) => (block,name,.phi incoming)) ++
      basicBlock.body.map fun (name,inst) => (block,name,.inst inst)

def Instruction.operands : Instruction → List Value
  | phi incoming => incoming
  | inst (.indexRead object _) | inst (.indexGet object _) => [object]
  | inst (.indexWrite value object _) => [value,object]
  | inst (.usePhi used) => [used]
  | inst (.seqInsert value base _) => [value,base]
  | inst (.seqInsertSeq base inserted _) => [base,inserted]
  | inst (.seqRemove base _ _) => [base]
  | inst (.seqSwap fromCollection toCollection) => [fromCollection,toCollection]
  | inst (.seqSwapWithin collection) => [collection]
  | inst (.seqCopy copied _ _) => [copied]
  | inst .sequenceAlloc | inst .other => []

inductive LiveRange
  | index (value : Value) (range : ValueRange)
  | shifted (start : ValueRange) (range : LiveRange)
  deriving DecidableEq

inductive Constraint
  | propagateRange
  /-- The constraints of inserts, removes and swaps. -/
  | unimplemented
  | shift (start : ValueRange)

structure Edge where
  source : Value
  target : Value
  constraint : Constraint

structure Graph where
  nodes : List (Value × Option LiveRange)
  edges : List Edge

namespace Graph

def empty : Graph := ⟨[],[]⟩

/-- A node that is there keeps its range. -/
def addNode (graph : Graph) (value : Value) (range : Option LiveRange) : Graph :=
  if value ∈ graph.nodes.map Prod.fst then graph
  else {graph with nodes := graph.nodes ++ [(value,range)]}

def hasEdge (graph : Graph) (source target : Value) : Bool :=
  graph.edges.any fun edge => edge.source = source ∧ edge.target = target

def addEdge (graph : Graph) (edge : Edge) : Graph :=
  if graph.hasEdge edge.source edge.target then graph
  else {graph with edges := graph.edges ++ [edge]}

/-- The edge of a use must be a new one. -/
def addUseToGraph (graph : Graph) (used user : Value) (constraint : Constraint) : Option Graph :=
  let graph := (graph.addNode used none).addNode user none
  if graph.hasEdge user used then none else some (graph.addEdge ⟨user,used,constraint⟩)

def addIndexUseToGraph (graph : Graph) (index collection : Value) (range : ValueRange) : Graph :=
  ((graph.addNode index (some (.index index range))).addNode collection none).addEdge
    ⟨index,collection,.propagateRange⟩

end Graph

def Instruction.indexUse : Instruction → Option (Value × Value)
  | inst (.indexRead object [index]) | inst (.indexGet object [index]) => some (index,object)
  | _ => none

def Instruction.collectionUses (loops : List Loop) (block : Nat) :
    Instruction → List (Value × Option Constraint)
  | phi incoming => incoming.map fun value => (value,some .propagateRange)
  | inst (.usePhi used) => [(used,some .propagateRange)]
  | inst (.indexWrite _ object _) => [(object,some .propagateRange)]
  | inst (.seqInsert _ base _) => [(base,some .unimplemented)]
  | inst (.seqInsertSeq base inserted _) => [(base,some .unimplemented),(inserted,some .unimplemented)]
  | inst (.seqRemove base _ _) => [(base,some .unimplemented)]
  | inst (.seqSwap fromCollection toCollection) =>
    [(fromCollection,some .unimplemented),(toCollection,some .unimplemented)]
  | inst (.seqSwapWithin collection) => [(collection,some .unimplemented)]
  | inst (.seqCopy copied beginIndex _) => [(copied,(analyze loops block beginIndex).map .shift)]
  | inst (.indexRead _ _) | inst (.indexGet _ _) | inst .sequenceAlloc | inst .other => []

/-- It fails where an index has no range or an edge is there already. -/
def addUsesToGraph (loops : List Loop) (graph : Graph) :
    Nat × Nat × Instruction → Option Graph
  | (block,name,instruction) => match instruction.indexUse with
    | some (index,object) => do
      return graph.addIndexUseToGraph index object (← analyze loops block index)
    | none => (instruction.collectionUses loops block).foldlM (fun graph (used,constraint) => do
        graph.addUseToGraph used (.inst name) (← constraint)) graph

def sequences (function : Function) (isSequence : Nat → Bool) : List (Nat × Nat × Instruction) :=
  (instructions function).filter fun (_,name,_) => isSequence name

def users (function : Function) (isSequence : Nat → Bool) : List (Nat × Nat × Instruction) :=
  (instructions function).filter fun (_,name,instruction) => !isSequence name &&
    instruction.operands.any fun operand => match operand with
      | .inst operand => isSequence operand
      | _ => false

def construct (function : Function) (isSequence : Nat → Bool) (loops : List Loop) : Option Graph := do
  let graph ← (sequences function isSequence).foldlM (fun graph instruction =>
    addUsesToGraph loops (graph.addNode (.inst instruction.2.1) none) instruction) .empty
  (users function isSequence).foldlM (addUsesToGraph loops) graph

abbrev Ranges := Value → Option LiveRange

def Graph.ranges (graph : Graph) : Ranges := fun value => (graph.nodes.lookup value).join

/-- Some constraints are not implemented. -/
def propagateEdge (ranges : Ranges) (edge : Edge) : Option (Option LiveRange) :=
  match edge.constraint with
  | .propagateRange => some (ranges edge.source)
  | .unimplemented => none
  | .shift start => some ((ranges edge.source).map (.shifted start))

/-- The merge of two ranges is not implemented. -/
def mergeRoot (ranges : Ranges) (edges : List Edge) (merged : Option LiveRange) :
    Option (Option LiveRange) :=
  edges.foldlM (fun merged edge => do
    match ← propagateEdge ranges edge,merged with
    | none,merged => some merged
    | some range,none => some (some range)
    | some _,some _ => none) merged

def mergeMember (ranges : Ranges) (edges : List Edge) (merged : Option LiveRange) :
    Option (Option LiveRange) :=
  edges.foldlM (fun merged edge => do
    match ← propagateEdge ranges edge,merged with
    | none,merged => some merged
    | some range,none => some (some range)
    | some range,some merged => if range = merged then some (some merged) else none) merged

structure Component where
  root : Value
  members : List Value

def Component.nodes (component : Component) : List Value := component.root :: component.members

/-- The condensation has the edges between roots. -/
def evaluateComponent (graph : Graph) (roots : List Value) (ranges : Ranges) (component : Component) :
    Option Ranges := do
  let incoming := graph.edges.filter fun edge => edge.target = component.root ∧
    edge.source ∉ component.nodes ∧ edge.source ∈ roots
  let merged ← mergeRoot ranges incoming (ranges component.root)
  component.members.foldlM (fun ranges node => do
    let merged ← mergeMember ranges (graph.edges.filter (·.target = node)) (ranges node)
    return Function.update ranges node merged) (Function.update ranges component.root merged)

def evaluate (graph : Graph) (order : List Component) : Option Ranges :=
  order.foldlM (evaluateComponent graph (order.map (·.root))) graph.ranges

/-- A topological order of the components. Nodes are visited in the order of their addresses, which
decides on the root of a component. -/
structure Condensed (nodes : List Value) (uses : Value → Value → Prop) (order : List Component) :
    Prop where
  nodup : (order.flatMap Component.nodes).Nodup
  all : ∀ value, value ∈ order.flatMap Component.nodes ↔ value ∈ nodes
  connected : ∀ component ∈ order, ∀ node ∈ component.nodes, ∀ other ∈ nodes,
    other ∈ component.nodes ↔ Relation.ReflTransGen uses node other ∧ Relation.ReflTransGen uses other node
  topological : order.Pairwise fun component later => ¬ uses later.root component.root

/-- The analysis gets through, and dead-element elimination dereferences no null range: it does so
for every node that is an instruction. -/
def Finishes (function : Function) (isSequence : Nat → Bool) (loops : List Loop) : Prop :=
  ∃ graph, construct function isSequence loops = some graph ∧
    ∀ order, Condensed (graph.nodes.map Prod.fst) (fun source target => graph.hasEdge source target) order →
      ∃ ranges, evaluate graph order = some ranges ∧
        ∀ name, .inst name ∈ graph.nodes.map Prod.fst → ranges (.inst name) ≠ none

end LiveRangeAnalysis
end RangeAnalysis
end Memoir
