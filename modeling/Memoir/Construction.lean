import Memoir.Machine

/-! SSA construction: PHI insertion over the iterated dominance frontiers, and the
walk over the dominator tree that renames collections through the chains of
reaching definitions. UsePHIs are off. `none` is a failed assertion or a chain
that the loop of the pass would follow for ever. -/
namespace Memoir.Construction
open Dominance

inductive Point
  | before (block index : Nat)
  | phi (block : Nat)

abbrev Tree (function : Function) := DominatorTree function.graph

/-- Whether a definition dominates a point; arguments dominate every point. The
code put before an instruction counts from the next instruction on. -/
def dominates {function : Function} (tree : Tree function) : Name → Point → Bool
  | .argument _,_ => true
  | .phi source _,.before block _ | .insertedPhi source _,.before block _ =>
    tree.dominates source block
  | .inst source i,.before block j | .ssa source i _,.before block j =>
    if source = block then i < j else tree.dominates source block
  | .phi source _,.phi block | .insertedPhi source _,.phi block | .inst source _,.phi block
  | .ssa source _ _,.phi block => source ≠ block && tree.dominates source block

/-- `reaching_definitions`, the entry set last first. -/
abbrev Reaching := List (Value × Value)

def setReachingDefinition (reaching : Reaching) (named definition : Value) : Reaching :=
  (named,definition) :: reaching

/-- The loop of `update_reaching_definition` after `named`. -/
def chase (visible : Name → Bool) (reaching : Reaching) (named : Value) :
    Nat → Value → Option Value
  | 0,_ => none
  | fuel + 1,current =>
    match reaching.lookup current with
    | none => some .null
    | some .null => some .null
    | some (.name n) =>
      if visible n || .name n = named then some (.name n)
      else chase visible reaching named fuel (.name n)
    | some (.constant k) =>
      if .constant k = named then some (.constant k)
      else chase visible reaching named fuel (.constant k)

section
variable {function : Function} (tree : Tree function)

def updateReachingDefinition (reaching : Reaching) (named : Value) (point : Point) :
    Option (Reaching × Value) := do
  let definition ← chase (dominates tree · point) reaching named (reaching.length + 1) named
  return (setReachingDefinition reaching named definition,definition)

abbrev Visited := Reaching × List (Name × Inst)

/-- A visitor of a mutable operation on one collection: its SSA form, on the
definition that reaches, becomes the reaching definition. -/
def visitMut (reaching : Reaching) (block i : Nat) (collection : Value) (build : Value → Inst) :
    Option Visited := do
  let (reaching,value) ← updateReachingDefinition tree reaching collection (.before block i)
  let result := Value.name (.ssa block i 0)
  let reaching := setReachingDefinition reaching collection result
  return (setReachingDefinition reaching result value,[(.ssa block i 0,build value)])

def visitMutIndexWriteInst (reaching : Reaching) (block i : Nat) (value : Element)
    (object : Value) (index : Scalar) : Option Visited :=
  visitMut tree reaching block i object fun object => .indexWrite value object index

def visitMutAssocWriteInst (reaching : Reaching) (block i : Nat) (value : Element)
    (object : Value) (key : Scalar) : Option Visited :=
  visitMut tree reaching block i object fun object => .assocWrite value object key

def visitMutSeqInsertInst (reaching : Reaching) (block i : Nat) (value : Element)
    (collection : Value) (index : Scalar) : Option Visited :=
  visitMut tree reaching block i collection fun base => .seqInsert value base index

def visitMutSeqRemoveInst (reaching : Reaching) (block i : Nat) (collection : Value)
    (first last : Scalar) : Option Visited :=
  visitMut tree reaching block i collection fun base => .seqRemove base first last

def visitMutSeqSwapWithinInst (reaching : Reaching) (block i : Nat) (collection : Value)
    (first last toFirst : Scalar) : Option Visited :=
  visitMut tree reaching block i collection fun base => .seqSwapWithin base first last toFirst

def visitMutAssocInsertInst (reaching : Reaching) (block i : Nat) (collection : Value)
    (key : Scalar) : Option Visited :=
  visitMut tree reaching block i collection fun base => .assocInsert base key

def visitMutAssocRemoveInst (reaching : Reaching) (block i : Nat) (collection : Value)
    (key : Scalar) : Option Visited :=
  visitMut tree reaching block i collection fun base => .assocRemove base key

def visitMutSeqInsertSeqInst (reaching : Reaching) (block i : Nat) (inserted collection : Value)
    (index : Scalar) : Option Visited := do
  let (reaching,base) ← updateReachingDefinition tree reaching collection (.before block i)
  let (reaching,insert) ← updateReachingDefinition tree reaching inserted (.before block i)
  let result := Value.name (.ssa block i 0)
  let reaching := setReachingDefinition reaching collection result
  return (setReachingDefinition reaching result base,
    [(.ssa block i 0,.seqInsertSeq insert base index)])

def visitMutSeqAppendInst (reaching : Reaching) (block i : Nat) (collection appended : Value) :
    Option Visited := do
  let (reaching,base) ← updateReachingDefinition tree reaching collection (.before block i)
  let (reaching,append) ← updateReachingDefinition tree reaching appended (.before block i)
  let result := Value.name (.ssa block i 1)
  let reaching := setReachingDefinition reaching collection result
  return (setReachingDefinition reaching result base,[(.ssa block i 0,.endInst),
    (.ssa block i 1,.seqInsertSeq append base (.name (.ssa block i 0)))])

def visitMutSeqSwapInst (reaching : Reaching) (block i : Nat) (fromCollection : Value)
    (first last : Scalar) (toCollection : Value) (toFirst : Scalar) : Option Visited := do
  let (reaching,fromValue) ←
    updateReachingDefinition tree reaching fromCollection (.before block i)
  let (reaching,toValue) ← updateReachingDefinition tree reaching toCollection (.before block i)
  let fromResult := Value.name (.ssa block i 1)
  let toResult := Value.name (.ssa block i 2)
  let reaching := setReachingDefinition reaching fromCollection fromResult
  let reaching := setReachingDefinition reaching fromResult fromValue
  let reaching := setReachingDefinition reaching toCollection toResult
  return (setReachingDefinition reaching toResult toValue,
    [(.ssa block i 0,.seqSwap fromValue first last toValue toFirst),
      (.ssa block i 1,.extractValue (.ssa block i 0) false),
      (.ssa block i 2,.extractValue (.ssa block i 0) true)])

/-- The copy has no entry of its own in the chains. -/
def visitMutSeqSplitInst (reaching : Reaching) (block i : Nat) (n : Name) (collection : Value)
    (first last : Scalar) : Option Visited := do
  let (reaching,value) ← updateReachingDefinition tree reaching collection (.before block i)
  let remaining := Value.name (.ssa block i 1)
  let reaching := setReachingDefinition reaching (.name n) (.name (.ssa block i 0))
  let reaching := setReachingDefinition reaching collection remaining
  return (setReachingDefinition reaching remaining value,
    [(.ssa block i 0,.seqCopy value first last),(.ssa block i 1,.seqRemove value first last)])

def visitRead (reaching : Reaching) (block i : Nat) (n : Name) (object : Value)
    (build : Value → Inst) : Option Visited := do
  let (reaching,value) ← updateReachingDefinition tree reaching object (.before block i)
  return (reaching,[(n,build value)])

def visitIndexReadInst (reaching : Reaching) (block i : Nat) (n : Name) (object : Value)
    (index : Scalar) : Option Visited :=
  visitRead tree reaching block i n object fun object => .indexRead object index

def visitAssocReadInst (reaching : Reaching) (block i : Nat) (n : Name) (object : Value)
    (key : Scalar) : Option Visited :=
  visitRead tree reaching block i n object fun object => .assocRead object key

def visitIndexGetInst (reaching : Reaching) (block i : Nat) (n : Name) (object : Value)
    (index : Scalar) : Option Visited :=
  visitRead tree reaching block i n object fun object => .indexGet object index

def visitAssocGetInst (reaching : Reaching) (block i : Nat) (n : Name) (object : Value)
    (key : Scalar) : Option Visited :=
  visitRead tree reaching block i n object fun object => .assocGet object key

/-- Without UsePHIs the visitor does nothing, and the object keeps its name. -/
def visitAssocHasInst (reaching : Reaching) (n : Name) (object : Value) (key : Scalar) :
    Option Visited :=
  some (reaching,[(n,.assocHas object key)])

def renameOperands (point : Point) : Reaching → List Value → Option (Reaching × List Value)
  | reaching,[] => some (reaching,[])
  | reaching,.name x :: rest => do
    let (reaching,value) ← updateReachingDefinition tree reaching (.name x) point
    let (reaching,values) ← renameOperands point reaching rest
    return (reaching,value :: values)
  | reaching,operand :: rest => do
    let (reaching,values) ← renameOperands point reaching rest
    return (reaching,operand :: values)

def visitInstruction (reaching : Reaching) (block i : Nat) (n : Name) (operands : List Value)
    (build : List Value → Inst) : Option Visited := do
  let (reaching,values) ← renameOperands tree (.before block i) reaching operands
  let reaching := if function.valueIsCollectionType n then
    setReachingDefinition reaching (.name n) (.name n) else reaching
  return (reaching,[(n,build values)])

def visit (reaching : Reaching) (block i : Nat) (n : Name) : Inst → Option Visited
  | .mutIndexWrite value object index =>
    visitMutIndexWriteInst tree reaching block i value object index
  | .mutAssocWrite value object key =>
    visitMutAssocWriteInst tree reaching block i value object key
  | .mutSeqInsert value collection index =>
    visitMutSeqInsertInst tree reaching block i value collection index
  | .mutSeqInsertSeq inserted collection index =>
    visitMutSeqInsertSeqInst tree reaching block i inserted collection index
  | .mutSeqRemove collection first last =>
    visitMutSeqRemoveInst tree reaching block i collection first last
  | .mutSeqAppend collection appended =>
    visitMutSeqAppendInst tree reaching block i collection appended
  | .mutSeqSwap fromCollection first last toCollection toFirst =>
    visitMutSeqSwapInst tree reaching block i fromCollection first last toCollection toFirst
  | .mutSeqSwapWithin collection first last toFirst =>
    visitMutSeqSwapWithinInst tree reaching block i collection first last toFirst
  | .mutSeqSplit collection first last =>
    visitMutSeqSplitInst tree reaching block i n collection first last
  | .mutAssocInsert collection key => visitMutAssocInsertInst tree reaching block i collection key
  | .mutAssocRemove collection key => visitMutAssocRemoveInst tree reaching block i collection key
  | .indexRead object index => visitIndexReadInst tree reaching block i n object index
  | .assocRead object key => visitAssocReadInst tree reaching block i n object key
  | .indexGet object index => visitIndexGetInst tree reaching block i n object index
  | .assocGet object key => visitAssocGetInst tree reaching block i n object key
  | .assocHas object key => visitAssocHasInst reaching n object key
  | .size collection =>
    visitInstruction tree reaching block i n [collection] fun | [c] => .size c | _ => .size .null
  | .assocKeys collection =>
    visitInstruction tree reaching block i n [collection] fun
      | [c] => .assocKeys c
      | _ => .assocKeys .null
  | .call callee collections scalars =>
    visitInstruction tree reaching block i n collections fun values => .call callee values scalars
  | inst => visitInstruction tree reaching block i n [] fun _ => inst

def visitBody (block : Nat) :
    Nat → Reaching → List (Name × Inst) → Option (Reaching × List (List (Name × Inst)))
  | _,reaching,[] => some (reaching,[])
  | i,reaching,(n,inst) :: rest => do
    let (reaching,code) ← visit tree reaching block i n inst
    let (reaching,codes) ← visitBody block (i + 1) reaching rest
    return (reaching,code :: codes)

def visitTerminator (reaching : Reaching) (block i : Nat) :
    Terminator → Option (Reaching × Terminator)
  | .ret (some (.collection value)) => do
    let (reaching,values) ← renameOperands tree (.before block i) reaching [value]
    return (reaching,.ret (some (.collection (values.headD .null))))
  | terminator => some (reaching,terminator)

def visitInsertedPhi (reaching : Reaching) (block : Nat) (named : Name) : Option Reaching := do
  let phi := Value.name (.insertedPhi block named)
  let (reaching,definition) ← updateReachingDefinition tree reaching (.name named) (.phi block)
  let reaching := setReachingDefinition reaching (.name named) phi
  return setReachingDefinition reaching phi definition

def visitInsertedPhis (block : Nat) : Reaching → List Name → Option Reaching
  | reaching,[] => some reaching
  | reaching,named :: rest => do
    visitInsertedPhis block (← visitInsertedPhi tree reaching block named) rest

end

section
variable (function : Function)

/-- The collection variables: arguments, then instructions in order. -/
def memoirNames : List Name :=
  ((List.range function.arguments).map Name.argument ++
    function.blocks.flatMap fun block => block.phis.map (·.1) ++ block.body.map (·.1)).filter
      function.valueIsCollectionType

/-- A use that counts as a definition of the variable: a mutable operation, whatever
the operand, or a `has`, but not the collection that an append appends. -/
def defines (named : Name) (inst : Inst) : Bool :=
  .name named ∈ inst.operands && match inst with
    | .mutSeqAppend collection _ => .name named = collection
    | .assocHas _ _ => true
    | inst => inst.isMut

def definitionParents (named : Name) : List Nat :=
  (named.block?).toList ++ (List.range function.blocks.length).filter fun block =>
    ((function.blocks[block]?).map fun b => b.body.any fun entry => defines named entry.2).getD false

def nameAlreadyInPhi (named : Name) (block : Nat) : Bool :=
  ((function.blocks[block]?).map fun b => b.phis.any fun entry =>
    entry.2.incoming.any fun incoming => incoming.2 = .collection (.name named)).getD false

variable {function} (tree : Tree function)

def nameDoesntDominate (named : Name) (block : Nat) : Bool :=
  match named.block? with
  | none => false
  | some parent => (function.predecessors block).any fun source => !tree.dominates parent source

def visitFrontier (named : Name) : List Nat → List Nat → List Nat → List Nat × List Nat
  | [],worklist,phiParents => (worklist,phiParents)
  | block :: rest,worklist,phiParents =>
    if block ∈ phiParents || nameDoesntDominate tree named block ||
        nameAlreadyInPhi function named block then
      visitFrontier named rest worklist phiParents
    else visitFrontier named rest (worklist ++ [block]) (phiParents ++ [block])

/-- Blocks enter the PHI parents once, so the worklist empties. -/
def insertPhis (named : Name) : Nat → List Nat → List Nat → Option (List Nat)
  | _,[],phiParents => some phiParents
  | 0,_ :: _,_ => none
  | fuel + 1,block :: rest,phiParents => do
    let frontier ← tree.frontier block
    let (worklist,phiParents) := visitFrontier tree named frontier rest phiParents
    insertPhis named fuel worklist phiParents

def phiParents (named : Name) : Option (List Nat) :=
  let worklist := definitionParents function named
  insertPhis tree named (worklist.length + function.blocks.length) worklist []

def insertedPhis : Option (List (Name × List Nat)) :=
  (memoirNames function).mapM fun named => do return (named,← phiParents tree named)

def insertedAt (inserted : List (Name × List Nat)) (block : Nat) : List Name :=
  (inserted.filter fun entry => block ∈ entry.2).map (·.1)

end

/-- The incoming values of the collection PHI nodes by name, and the code of the
blocks that the walk has visited. -/
structure Walk where
  reaching : Reaching
  incoming : Name → List (Nat × Value)
  code : List (Nat × List (List (Name × Inst)) × Terminator)

def Phi.collections (phi : Phi) : List (Nat × Value) :=
  phi.incoming.filterMap fun entry => entry.2.collection?.map fun value => (entry.1,value)

/-- `getBasicBlockIndex` finds the first entry of a predecessor. -/
def setIncoming (source : Nat) (value : Value) : List (Nat × Value) → List (Nat × Value)
  | [] => []
  | (block,old) :: rest =>
    if block = source then (block,value) :: rest else (block,old) :: setIncoming source value rest

section
variable (function : Function) (inserted : List (Name × List Nat))

def collectionPhis (block : Nat) : List Name :=
  (((function.blocks[block]?).map fun b => b.phis.map (·.1)).getD []).filter
      function.valueIsCollectionType ++
    (insertedAt inserted block).map (.insertedPhi block)

def initialIncoming : Name → List (Nat × Value)
  | .insertedPhi block named =>
    (function.predecessors block).map fun source => (source,.name named)
  | .phi block i =>
    ((function.blocks[block]?).bind fun b => (b.phis[i]?).map fun entry =>
      Phi.collections entry.2).getD []
  | _ => []

def initialWalk : Walk :=
  ⟨(memoirNames function).map fun named => (.name named,.name named),initialIncoming function,[]⟩

def renamedPhi (walk : Walk) (n : Name) (phi : Phi) : Phi :=
  if function.valueIsCollectionType n then
    ⟨(walk.incoming n).map fun entry => (entry.1,.collection entry.2)⟩
  else phi

def renamedBlock (walk : Walk) (block : Nat) (b : BasicBlock) : BasicBlock :=
  let phis := b.phis.map (fun entry => (entry.1,renamedPhi function walk entry.1 entry.2)) ++
    (insertedAt inserted block).map fun named =>
      (.insertedPhi block named,⟨(walk.incoming (.insertedPhi block named)).map fun entry =>
        (entry.1,.collection entry.2)⟩)
  match walk.code.lookup block with
  | some (code,terminator) => ⟨phis,code.flatten,terminator⟩
  | none => ⟨phis,b.body,b.terminator⟩

end

section
variable {function : Function} (tree : Tree function) (inserted : List (Name × List Nat))

def visitSuccessorPhi (source last : Nat) (walk : Walk) (phi : Name) : Option Walk := do
  let value ← (walk.incoming phi).lookup source
  let (reaching,definition) ←
    updateReachingDefinition tree walk.reaching value (.before source last)
  return {walk with
    reaching
    incoming := Function.update walk.incoming phi
      (setIncoming source definition (walk.incoming phi))}

def visitSuccessorPhis (source last : Nat) (walk : Walk) (phis : List Name) : Option Walk :=
  phis.foldlM (visitSuccessorPhi tree source last) walk

def visitBlock (walk : Walk) (block : Nat) : Option Walk := do
  let b ← function.blocks[block]?
  let reaching := b.phis.foldl
    (fun reaching entry => setReachingDefinition reaching (.name entry.1) (.name entry.1))
    walk.reaching
  let reaching ← visitInsertedPhis tree block reaching (insertedAt inserted block)
  let (reaching,code) ← visitBody tree block 0 reaching b.body
  let (reaching,terminator) ← visitTerminator tree reaching block b.body.length b.terminator
  let walk := {walk with reaching, code := (block,code,terminator) :: walk.code}
  (function.successors block).foldlM (fun walk successor =>
    visitSuccessorPhis tree block b.body.length walk
      (collectionPhis function inserted successor)) walk

end

/-- The visitors of writes and of the insertion of an element ask for the type of the collection. -/
def asksType : Inst → Bool
  | .mutIndexWrite _ _ _ | .mutAssocWrite _ _ _ | .mutSeqInsert _ _ _ => true
  | _ => false

def typesFound {function : Function} (tree : Tree function) (typed : Name → Bool) : Bool :=
  tree.preorder.all fun block => (function.blocks[block]?).all fun b =>
    b.body.all fun entry => !asksType entry.2 || typed entry.1

/-- The pass on a function; blocks that the walk does not reach keep their code. A visitor that gets
no type aborts. -/
def construct (function : Function) (tree : Tree function) (typed : Name → Bool) : Option Function := do
  let inserted ← insertedPhis tree
  if typesFound tree typed = false then none
  let walk ← tree.preorder.foldlM (visitBlock tree inserted) (initialWalk function)
  return {function with
    blocks := function.blocks.mapIdx (renamedBlock function inserted walk)}

end Memoir.Construction
