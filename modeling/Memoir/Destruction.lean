import Memoir.Coalescing
import Memoir.Construction
import Memoir.EndMarkers
import Memoir.Program

/-! SSA destruction with collection lowering: each operation becomes a call of a backend, and a version
that a call makes in place is coalesced with the collection that it is made from. Nothing is copied. `none`
is a failed assertion, an unreachable branch, or an end marker that keeps a use. -/
namespace Memoir

def Element.mapCollection (f : Value → Value) : Element → Element
  | .scalar s => .scalar s
  | .collection v => .collection (f v)

/-- Replaces the collections; scalars have no collection type. -/
def Inst.mapCollections (f : Value → Value) : Inst → Inst
  | mutIndexWrite value object index => mutIndexWrite (value.mapCollection f) (f object) index
  | mutAssocWrite value object key => mutAssocWrite (value.mapCollection f) (f object) key
  | mutSeqInsert value collection index => mutSeqInsert (value.mapCollection f) (f collection) index
  | mutSeqInsertSeq inserted collection index => mutSeqInsertSeq (f inserted) (f collection) index
  | mutSeqRemove collection first last => mutSeqRemove (f collection) first last
  | mutSeqAppend collection appended => mutSeqAppend (f collection) (f appended)
  | mutSeqSwap fromCollection first last toCollection toFirst =>
    mutSeqSwap (f fromCollection) first last (f toCollection) toFirst
  | mutSeqSwapWithin collection first last toFirst => mutSeqSwapWithin (f collection) first last toFirst
  | mutSeqSplit collection first last => mutSeqSplit (f collection) first last
  | mutAssocInsert collection key => mutAssocInsert (f collection) key
  | mutAssocRemove collection key => mutAssocRemove (f collection) key
  | indexWrite value object index => indexWrite (value.mapCollection f) (f object) index
  | assocWrite value object key => assocWrite (value.mapCollection f) (f object) key
  | seqInsert value base index => seqInsert (value.mapCollection f) (f base) index
  | seqInsertSeq inserted base index => seqInsertSeq (f inserted) (f base) index
  | seqRemove base first last => seqRemove (f base) first last
  | seqSwap fromCollection first last toCollection toFirst =>
    seqSwap (f fromCollection) first last (f toCollection) toFirst
  | seqSwapWithin collection first last toFirst => seqSwapWithin (f collection) first last toFirst
  | seqCopy copied first last => seqCopy (f copied) first last
  | assocInsert base key => assocInsert (f base) key
  | assocRemove base key => assocRemove (f base) key
  | extractValue pair second => extractValue pair second
  | collectionPhi kind collection => collectionPhi kind (f collection)
  | deleteCollection deleted => deleteCollection (f deleted)
  | endInst => endInst
  | indexRead object index => indexRead (f object) index
  | assocRead object key => assocRead (f object) key
  | indexGet object index => indexGet (f object) index
  | assocGet object key => assocGet (f object) key
  | assocHas object key => assocHas (f object) key
  | size collection => size (f collection)
  | assocKeys collection => assocKeys (f collection)
  | seqAlloc length => seqAlloc length
  | assocAlloc => assocAlloc
  | call callee collections scalars => call callee (collections.map f) scalars
  | scalar function operands => scalar function operands
  | backend function collections scalars value =>
    backend function (collections.map f) scalars (value.map (Element.mapCollection f))

def Phi.mapCollections (f : Value → Value) (phi : Phi) : Phi where
  incoming := phi.incoming.map fun entry => (entry.1,entry.2.mapCollection f)

def Terminator.mapCollections (f : Value → Value) : Terminator → Terminator
  | ret value => ret (value.map (Element.mapCollection f))
  | switch selector targets => switch selector targets

def Function.uses (function : Function) : List Name :=
  function.blocks.flatMap fun block =>
    block.phis.flatMap (fun entry => entry.2.incoming.filterMap fun incoming => incoming.2.name?) ++
      block.body.flatMap (fun entry => entry.2.names) ++ block.terminator.names

namespace Destruction

def operandNumbers : Inst → List (Nat × Scalar)
  | .seqInsert _ _ index | .seqInsertSeq _ _ index => [(2,index)]
  | .assocInsert _ key | .assocRemove _ key => [(1,key)]
  | .seqRemove _ first last | .seqCopy _ first last => [(1,first),(2,last)]
  | .seqSwap _ first last _ toFirst => [(1,first),(2,last),(4,toFirst)]
  | .seqSwapWithin _ first last toFirst => [(1,first),(2,last),(3,toFirst)]
  | _ => []

def contextualized (endMarkers : List Name) (inst : Inst) : List (Name × Value) :=
  (operandNumbers inst).filterMap fun (number,operand) =>
    match operand with
    | .name n => if n ∈ endMarkers then
        (EndMarkers.contextualizeEnd ⟨0,number⟩ inst).map fun collection => (n,collection)
      else none
    | .constant _ => none

/-- The call that a visitor creates; end markers, what is extracted from a pair and versions that only give
another name are erased. -/
def lowerInst : Inst → Option Inst
  | .indexWrite value object index => some (.backend .vectorWrite [object] [index] (some value))
  | .assocWrite value object key => some (.backend .mapWrite [object] [key] (some value))
  | .seqInsert value base index => some (.backend .vectorInsertElement [base] [index] (some value))
  | .seqInsertSeq inserted base index => some (.backend .vectorInsert [base,inserted] [index] none)
  | .seqRemove base first last => some (.backend .vectorRemoveRange [base] [first,last] none)
  | .seqSwap fromCollection first last toCollection toFirst =>
    some (.backend .vectorSwap [fromCollection,toCollection] [first,last,toFirst] none)
  | .seqSwapWithin collection first last toFirst =>
    some (.backend .vectorSwap [collection,collection] [first,last,toFirst] none)
  | .seqCopy copied first last => some (.backend .vectorCopy [copied] [first,last] none)
  | .assocInsert base key => some (.backend .mapInsert [base] [key] none)
  | .assocRemove base key => some (.backend .mapRemove [base] [key] none)
  | .extractValue _ _ | .collectionPhi _ _ | .endInst => none
  | .deleteCollection deleted => some (.backend .free [deleted] [] none)
  | .indexRead object index => some (.backend .vectorRead [object] [index] none)
  | .assocRead object key => some (.backend .mapRead [object] [key] none)
  | .indexGet object index => some (.backend .vectorGet [object] [index] none)
  | .assocGet object key => some (.backend .mapGet [object] [key] none)
  | .assocHas object key => some (.backend .mapHas [object] [key] none)
  | .size collection => some (.backend .size [collection] [] none)
  | .assocKeys collection => some (.backend .mapKeys [collection] [] none)
  | .seqAlloc length => some (.backend .vectorAllocate [] [length] none)
  | .assocAlloc => some (.backend .mapAllocate [] [] none)
  | inst => some inst

/-- A size instruction is named after the end marker that it replaces. -/
def lowerEntry (endMarkers : List Name) (entry : Name × Inst) : List (Name × Inst) :=
  (contextualized endMarkers entry.2).map (fun (n,collection) =>
    (n,Inst.backend .size [collection] [] none)) ++
  (lowerInst entry.2).toList.map fun inst => (entry.1,inst)

section
variable (function : Function)

def extractions (pair : Name) : List (Name × Bool) :=
  function.blocks.flatMap fun block => block.body.filterMap fun entry =>
    match entry.2 with
    | .extractValue pair' second => if pair' = pair then some (entry.1,second) else none
    | _ => none

/-- What a visitor coalesces with an operand; other results are replaced by the call. -/
def coalesces (entry : Name × Inst) : List (Value × Value) :=
  match entry.2 with
  | .indexWrite _ object _ | .assocWrite _ object _ => [(.name entry.1,object)]
  | .seqSwapWithin collection _ _ _ => [(.name entry.1,collection)]
  | .assocInsert base _ | .assocRemove base _ => [(.name entry.1,base)]
  | .collectionPhi _ collection => [(.name entry.1,collection)]
  | .seqSwap fromCollection _ _ toCollection _ =>
    (extractions function entry.1).map fun (m,second) =>
      (.name m,if second then toCollection else fromCollection)
  | _ => []

def onlyUsers (n : Name) (allowed : Inst → Bool) : Bool :=
  function.blocks.all fun block =>
    block.phis.all (fun entry => entry.2.incoming.all fun incoming => incoming.2.name? ≠ some n) &&
      block.body.all (fun entry => n ∉ entry.2.names || allowed entry.2) &&
        n ∉ block.terminator.names

variable (tree : Construction.Tree function)

/-- The walk over the dominator tree visits the reachable blocks. -/
def visited : List (Name × Inst) :=
  (tree.preorder.filterMap (function.blocks[·]?)).flatMap (·.body)

def endMarkers : List Name :=
  (visited function tree).filterMap fun entry =>
    match entry.2 with
    | .endInst => some entry.1
    | _ => none

def coalescedValues : List (Value × Value) := (visited function tree).flatMap (coalesces function)

/-- No visitor reaches an unreachable branch, and an end marker has one use at most. -/
def supported : Bool :=
  (visited function tree).all fun entry =>
    match entry.2 with
    | .endInst => function.uses.count entry.1 ≤ 1 && onlyUsers function entry.1 fun inst =>
        entry.1 ∈ (contextualized (endMarkers function tree) inst).map Prod.fst
    | .seqSwap _ _ _ _ _ => onlyUsers function entry.1 fun
        | .extractValue _ _ => true
        | _ => false
    | _ => true

def lowerBlock (f : Value → Value) (b : Nat) (block : BasicBlock) : BasicBlock where
  phis := block.phis.map fun entry => (entry.1,entry.2.mapCollections f)
  body := (if b ∈ tree.preorder then block.body.flatMap (lowerEntry (endMarkers function tree))
    else block.body).map fun entry => (entry.1,entry.2.mapCollections f)
  terminator := block.terminator.mapCollections f

def lowered (f : Value → Value) : Function where
  arguments := function.arguments
  blocks := function.blocks.mapIdx (lowerBlock function tree f)
  valueIsCollectionType := function.valueIsCollectionType

def destruct : Option Function := do
  guard (supported function tree)
  let order := function.blocks.flatMap fun block => block.body.map fun entry => Value.name entry.1
  let state ← order.foldlM (Coalescing.doCoalesce (coalescedValues function tree)) ⟨[],id⟩
  return lowered function tree state.operands

end

end Destruction

/-- A function in SSA form: each name is defined once, and the results of a swap are taken apart by
instructions below it. -/
structure SsaFunction where
  function : Function
  nonempty : 0 < function.blocks.length
  source : ∀ block ∈ function.blocks, ∀ n inst, (n,inst) ∈ block.body →
    inst.isMut = false ∧ inst.isBackend = false
  defined_once : ∀ (b b' : Nat) (block block' : BasicBlock) n, function.blocks[b]? = some block →
    function.blocks[b']? = some block' → n ∈ block.names → n ∈ block'.names → b = b'
  names_nodup : ∀ block ∈ function.blocks, block.names.Nodup
  arguments : ∀ block ∈ function.blocks, ∀ i, .argument i ∉ block.names
  results : ∀ block ∈ function.blocks, ∀ n inst, (n,inst) ∈ block.body →
    inst.isSsa = true → (∀ x first last y toFirst, inst ≠ .seqSwap x first last y toFirst) →
      (∀ v, inst ≠ .deleteCollection v) → inst ≠ .endInst → function.valueIsCollectionType n = true
  scalars : ∀ block ∈ function.blocks, ∀ n (phi : Phi), (n,phi) ∈ block.phis →
    ∀ source m, (source,.scalar (.name m)) ∈ phi.incoming → function.valueIsCollectionType m = false
  pairs : ∀ b (block : BasicBlock), function.blocks[b]? = some block → ∀ k n pair second,
    block.body[k]? = some (n,.extractValue pair second) →
      (function.graph.Reachable b → function.Available pair b k) ∧
        ∃ source ∈ function.blocks, ∃ x first last y toFirst,
          (pair,Inst.seqSwap x first last y toFirst) ∈ source.body
  ssa : function.Ssa

end Memoir
