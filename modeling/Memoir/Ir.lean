import Memoir.Collection
import Memoir.Dominance

/-! The MemOIR instructions inside LLVM functions: mutable operations, their SSA
forms, uses of collections, PHI nodes and terminators. A name says where it is
defined. -/
namespace Memoir

/-- The results of the program's PHI nodes and instructions are named by position;
the other names are those that construction creates: the instructions put before
an instruction, and the PHI node inserted into a block for a variable. -/
inductive Name
  | argument (index : Nat)
  | phi (block index : Nat)
  | inst (block index : Nat)
  | ssa (block index place : Nat)
  | insertedPhi (block : Nat) (named : Name)
  deriving DecidableEq

def Name.block? : Name → Option Nat
  | .argument _ => none
  | .phi block _ | .inst block _ | .ssa block _ _ | .insertedPhi block _ => some block

/-- A collection operand; constants are `undef` and null pointers of the program,
`null` is a null operand in the compiler. -/
inductive Value
  | name (name : Name)
  | constant (id : Nat)
  | null
  deriving DecidableEq

def Value.name? : Value → Option Name
  | .name n => some n
  | .constant _ | .null => none

inductive Scalar
  | constant (word : Word)
  | name (name : Name)
  deriving DecidableEq

inductive Element
  | scalar (scalar : Scalar)
  | collection (value : Value)
  deriving DecidableEq

def Element.collection? : Element → Option Value
  | .collection v => some v
  | .scalar _ => none

/-- The functions of the vector and hash-table backends that lowering calls; the
first two have one implementation for each of the two kinds of collection. -/
inductive Backend
  | size | free | vectorAllocate | vectorRead | vectorGet | vectorWrite | vectorInsertElement
  | vectorInsert | vectorRemoveRange | vectorCopy | vectorSwap | mapAllocate | mapRead | mapGet
  | mapWrite | mapHas | mapInsert | mapRemove | mapKeys
  deriving DecidableEq

inductive CollectionPhi
  | use | def_ | arg | ret
  deriving DecidableEq

inductive Inst
  | mutIndexWrite (value : Element) (object : Value) (index : Scalar)
  | mutAssocWrite (value : Element) (object : Value) (key : Scalar)
  | mutSeqInsert (value : Element) (collection : Value) (index : Scalar)
  | mutSeqInsertSeq (inserted collection : Value) (index : Scalar)
  | mutSeqRemove (collection : Value) (first last : Scalar)
  | mutSeqAppend (collection appended : Value)
  | mutSeqSwap (fromCollection : Value) (first last : Scalar) (toCollection : Value)
      (toFirst : Scalar)
  | mutSeqSwapWithin (collection : Value) (first last toFirst : Scalar)
  | mutSeqSplit (collection : Value) (first last : Scalar)
  | mutAssocInsert (collection : Value) (key : Scalar)
  | mutAssocRemove (collection : Value) (key : Scalar)
  | indexWrite (value : Element) (object : Value) (index : Scalar)
  | assocWrite (value : Element) (object : Value) (key : Scalar)
  | seqInsert (value : Element) (base : Value) (index : Scalar)
  | seqInsertSeq (inserted base : Value) (index : Scalar)
  | seqRemove (base : Value) (first last : Scalar)
  | seqSwap (fromCollection : Value) (first last : Scalar) (toCollection : Value)
      (toFirst : Scalar)
  | seqSwapWithin (collection : Value) (first last toFirst : Scalar)
  | seqCopy (copied : Value) (first last : Scalar)
  | assocInsert (base : Value) (key : Scalar)
  | assocRemove (base : Value) (key : Scalar)
  | extractValue (pair : Name) (second : Bool)
  | collectionPhi (kind : CollectionPhi) (collection : Value)
  | deleteCollection (deleted : Value)
  | endInst
  | indexRead (object : Value) (index : Scalar)
  | assocRead (object : Value) (key : Scalar)
  | indexGet (object : Value) (index : Scalar)
  | assocGet (object : Value) (key : Scalar)
  | assocHas (object : Value) (key : Scalar)
  | size (collection : Value)
  | assocKeys (collection : Value)
  | seqAlloc (length : Scalar)
  | assocAlloc
  | call (callee : Nat) (collections : List Value) (scalars : List Scalar)
  | scalar (function : List Word → Word) (operands : List Scalar)
  | backend (function : Backend) (collections : List Value) (scalars : List Scalar)
      (value : Option Element)

inductive Terminator
  | ret (value : Option Element)
  | switch (selector : Scalar) (targets : List Nat)

structure Phi where
  incoming : List (Nat × Element)

structure BasicBlock where
  phis : List (Name × Phi)
  body : List (Name × Inst)
  terminator : Terminator

/-- `valueIsCollectionType` says which names have a collection type. -/
structure Function where
  arguments : Nat
  blocks : List BasicBlock
  valueIsCollectionType : Name → Bool

namespace Function

def successors (function : Function) (block : Nat) : List Nat :=
  match function.blocks[block]? with
  | some ⟨_,_,.switch _ targets⟩ => targets
  | _ => []

def graph (function : Function) : Dominance.Graph Nat := ⟨0,function.successors⟩

/-- One entry for each edge, as for the predecessors of a block in LLVM. -/
def predecessors (function : Function) (block : Nat) : List Nat :=
  (List.range function.blocks.length).flatMap fun source =>
    (function.successors source).filter (· = block) |>.map fun _ => source

end Function

namespace Inst

/-- The collection operands that an instruction mutates, or whose new version it
makes, in the order of the operands. -/
def mutated : Inst → List Value
  | mutIndexWrite _ object _ | mutAssocWrite _ object _ => [object]
  | mutSeqInsert _ collection _ | mutSeqInsertSeq _ collection _ | mutSeqRemove collection _ _
  | mutSeqAppend collection _ | mutSeqSwapWithin collection _ _ _ | mutSeqSplit collection _ _
  | mutAssocInsert collection _ | mutAssocRemove collection _ => [collection]
  | mutSeqSwap fromCollection _ _ toCollection _ | seqSwap fromCollection _ _ toCollection _ =>
    [fromCollection,toCollection]
  | indexWrite _ object _ | assocWrite _ object _ => [object]
  | seqInsert _ base _ | seqInsertSeq _ base _ | seqRemove base _ _ | assocInsert base _
  | assocRemove base _ => [base]
  | seqSwapWithin collection _ _ _ => [collection]
  | deleteCollection deleted => [deleted]
  | assocRead object _ | assocGet object _ => [object]
  | backend .vectorInsert collections _ _ => collections.take 1
  | backend .vectorSwap collections _ _ | backend .vectorWrite collections _ _
  | backend .vectorInsertElement collections _ _ | backend .vectorRemoveRange collections _ _
  | backend .mapWrite collections _ _ | backend .mapInsert collections _ _
  | backend .mapRemove collections _ _ | backend .mapRead collections _ _
  | backend .mapGet collections _ _ => collections
  | _ => []

def read : Inst → List Value
  | mutSeqInsertSeq inserted _ _ | seqInsertSeq inserted _ _ => [inserted]
  | mutSeqAppend _ appended => [appended]
  | seqCopy copied _ _ => [copied]
  | collectionPhi _ collection => [collection]
  | indexRead object _ | indexGet object _ | assocHas object _ => [object]
  | size collection | assocKeys collection => [collection]
  | call _ collections _ => collections
  | backend .vectorInsert collections _ _ => collections.drop 1
  | backend .size collections _ _ | backend .vectorRead collections _ _
  | backend .vectorGet collections _ _ | backend .vectorCopy collections _ _
  | backend .mapHas collections _ _ | backend .mapKeys collections _ _ => collections
  | _ => []

def element : Inst → Option Element
  | mutIndexWrite value _ _ | mutAssocWrite value _ _ | mutSeqInsert value _ _ => some value
  | indexWrite value _ _ | assocWrite value _ _ | seqInsert value _ _ => some value
  | backend _ _ _ value => value
  | _ => none

def isMut : Inst → Bool
  | mutIndexWrite _ _ _ | mutAssocWrite _ _ _ | mutSeqInsert _ _ _ | mutSeqInsertSeq _ _ _
  | mutSeqRemove _ _ _ | mutSeqAppend _ _ | mutSeqSwap _ _ _ _ _ | mutSeqSwapWithin _ _ _ _
  | mutSeqSplit _ _ _ | mutAssocInsert _ _ | mutAssocRemove _ _ => true
  | _ => false

/-- The SSA forms and deletions, which the mutable programs that construction reads do not have. -/
def isSsa : Inst → Bool
  | indexWrite _ _ _ | assocWrite _ _ _ | seqInsert _ _ _ | seqInsertSeq _ _ _ | seqRemove _ _ _
  | seqSwap _ _ _ _ _ | seqSwapWithin _ _ _ _ | seqCopy _ _ _ | assocInsert _ _ | assocRemove _ _
  | extractValue _ _ | collectionPhi _ _ | deleteCollection _ | endInst => true
  | _ => false

def operands (inst : Inst) : List Value :=
  inst.mutated ++ inst.read ++ (inst.element.bind Element.collection?).toList

end Inst

end Memoir
