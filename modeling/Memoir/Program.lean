import Memoir.Ir

/-! Functions in SSA form, and the programs that construction reads. -/
namespace Memoir

def Scalar.name? : Scalar → Option Name
  | .constant _ => none
  | .name n => some n

def Element.name? : Element → Option Name
  | .scalar s => s.name?
  | .collection v => v.name?

namespace Inst

def scalars : Inst → List Scalar
  | mutIndexWrite _ _ i | mutAssocWrite _ _ i | mutSeqInsert _ _ i | mutSeqInsertSeq _ _ i
  | mutAssocInsert _ i | mutAssocRemove _ i => [i]
  | mutSeqRemove _ first last | mutSeqSplit _ first last => [first,last]
  | mutSeqSwap _ first last _ toFirst | mutSeqSwapWithin _ first last toFirst =>
    [first,last,toFirst]
  | indexWrite _ _ i | assocWrite _ _ i | seqInsert _ _ i | seqInsertSeq _ _ i
  | assocInsert _ i | assocRemove _ i => [i]
  | seqRemove _ first last | seqCopy _ first last => [first,last]
  | seqSwap _ first last _ toFirst | seqSwapWithin _ first last toFirst => [first,last,toFirst]
  | indexRead _ i | assocRead _ i | indexGet _ i | assocGet _ i | assocHas _ i => [i]
  | seqAlloc length => [length]
  | call _ _ scalars | scalar _ scalars | backend _ _ scalars _ => scalars
  | mutSeqAppend _ _ | extractValue _ _ | collectionPhi _ _ | deleteCollection _ | endInst | size _
  | assocKeys _ | assocAlloc => []

def names (inst : Inst) : List Name :=
  (match inst with
    | extractValue pair _ => [pair]
    | _ => []) ++
  (inst.mutated ++ inst.read).filterMap Value.name? ++ inst.element.toList.filterMap Element.name? ++
    inst.scalars.filterMap Scalar.name?

theorem mem_names {inst : Inst} {m : Name} (member : m ∈ inst.names) :
    (∃ second, inst = .extractValue m second) ∨ .name m ∈ inst.operands ∨
      .name m ∈ inst.scalars ∨ inst.element = some (.scalar (.name m)) := by
  simp only [names,List.mem_append,List.mem_filterMap] at member
  rcases member with ((member | ⟨operand,used,named⟩) | ⟨element,used,named⟩) | ⟨s,used,named⟩
  · left
    cases inst <;> simp_all
  · right; left
    cases operand <;> simp_all [Value.name?,operands]
    tauto
  · rw [Option.mem_toList] at used
    rcases element with (_ | n) | (n | _ | _) <;>
      simp_all [Element.name?,Scalar.name?,Value.name?,operands,Element.collection?]
  · right; right; left
    cases s <;> simp_all [Scalar.name?]

def isSplit : Inst → Bool
  | mutSeqSplit _ _ _ => true
  | _ => false

def isBackend : Inst → Bool
  | backend _ _ _ _ => true
  | _ => false

end Inst

namespace Terminator

def operands : Terminator → List Value
  | ret value => (value.bind Element.collection?).toList
  | switch _ _ => []

def names : Terminator → List Name
  | ret value => value.toList.filterMap Element.name?
  | switch selector _ => selector.name?.toList

end Terminator

def BasicBlock.names (block : BasicBlock) : List Name :=
  block.phis.map Prod.fst ++ block.body.map Prod.fst

namespace Function

variable (function : Function)

def Defined (n : Name) : Prop :=
  (∃ i < function.arguments, n = .argument i) ∨ ∃ block ∈ function.blocks, n ∈ block.names

/-- The definition of a name dominates the place before the instruction `k` of a block. -/
def Available (n : Name) (b k : Nat) : Prop :=
  (∃ i < function.arguments, n = .argument i) ∨
  (∃ block, function.blocks[b]? = some block ∧
    n ∈ block.phis.map Prod.fst ++ (block.body.take k).map Prod.fst) ∨
  ∃ source block, function.blocks[source]? = some block ∧ n ∈ block.names ∧
    function.graph.StrictlyDominates source b

def Usable (b k : Nat) (operand : Value) : Prop :=
  operand ≠ .null ∧
    ∀ n, operand = .name n → function.graph.Reachable b → function.Available n b k

/-- What LLVM's verifier asks of the operands. In unreachable blocks, and on edges
from them, definitions need not dominate. -/
structure Ssa : Prop where
  operands : ∀ b block, function.blocks[b]? = some block → ∀ k n inst,
    block.body[k]? = some (n,inst) → ∀ operand ∈ inst.operands, function.Usable b k operand
  terminator : ∀ b block, function.blocks[b]? = some block →
    ∀ operand ∈ block.terminator.operands, function.Usable b block.body.length operand
  incoming : ∀ block ∈ function.blocks, ∀ n phi, (n,phi) ∈ block.phis → ∀ source value,
    (source,.collection value) ∈ phi.incoming → ∀ pred, function.blocks[source]? = some pred →
      function.Usable source pred.body.length value
  agree : ∀ block ∈ function.blocks, ∀ n phi, (n,phi) ∈ block.phis → ∀ source first second,
    (source,.collection first) ∈ phi.incoming → (source,.collection second) ∈ phi.incoming →
      first = second
  defined : ∀ block ∈ function.blocks,
    (∀ n inst, (n,inst) ∈ block.body → ∀ m ∈ inst.names, function.Defined m) ∧
    (∀ m ∈ block.terminator.names, function.Defined m) ∧
    ∀ n phi, (n,phi) ∈ block.phis → ∀ entry ∈ phi.incoming, ∀ m, entry.2.name? = some m →
      function.Defined m

def instruction? : Name → Option Inst
  | .inst b i => (function.blocks[b]?).bind fun block => (block.body[i]?).map Prod.snd
  | _ => none

def splitResult (n : Name) : Bool := ((function.instruction? n).map Inst.isSplit).getD false

def IsScalar (n : Name) : Prop :=
  function.valueIsCollectionType n = false ∧
    ∀ inst, function.instruction? n = some inst → inst.isMut = false

end Function

structure Program where
  function : Function
  phis_named : ∀ b (block : BasicBlock), function.blocks[b]? = some block →
    block.phis.map Prod.fst = (List.range block.phis.length).map (.phi b)
  body_named : ∀ b (block : BasicBlock), function.blocks[b]? = some block →
    block.body.map Prod.fst = (List.range block.body.length).map (.inst b)
  source : ∀ block ∈ function.blocks, ∀ n inst, (n,inst) ∈ block.body →
    inst.isSsa = false ∧ inst.isBackend = false
  results : ∀ block ∈ function.blocks, ∀ n inst, (n,inst) ∈ block.body → inst.isMut = true →
    function.valueIsCollectionType n = inst.isSplit
  nonempty : 0 < function.blocks.length
  targets : ∀ b, ∀ t ∈ function.successors b, t < function.blocks.length ∧ t ≠ 0
  incoming : ∀ b (block : BasicBlock), function.blocks[b]? = some block → ∀ n (phi : Phi), (n,phi) ∈ block.phis →
    (phi.incoming.map Prod.fst).Perm (function.predecessors b)
  phi_types : ∀ block ∈ function.blocks, ∀ n (phi : Phi), (n,phi) ∈ block.phis →
    ∀ entry ∈ phi.incoming, entry.2.collection?.isSome = function.valueIsCollectionType n
  collections : ∀ block ∈ function.blocks,
    (∀ n inst, (n,inst) ∈ block.body → ∀ m, .name m ∈ inst.operands →
      function.valueIsCollectionType m = true) ∧
    (∀ m, .name m ∈ block.terminator.operands → function.valueIsCollectionType m = true) ∧
    ∀ n (phi : Phi), (n,phi) ∈ block.phis → ∀ source m, (source,.collection (.name m)) ∈ phi.incoming →
      function.valueIsCollectionType m = true
  scalars : ∀ block ∈ function.blocks,
    (∀ n inst, (n,inst) ∈ block.body →
      (∀ m, .name m ∈ inst.scalars → function.IsScalar m) ∧
      ∀ m, inst.element = some (.scalar (.name m)) → function.IsScalar m) ∧
    (∀ m, block.terminator = .ret (some (.scalar (.name m))) → function.IsScalar m) ∧
    (∀ m targets, block.terminator = .switch (.name m) targets → function.IsScalar m) ∧
    ∀ n (phi : Phi), (n,phi) ∈ block.phis → ∀ source m, (source,.scalar (.name m)) ∈ phi.incoming →
      function.IsScalar m
  ssa : function.Ssa

end Memoir
