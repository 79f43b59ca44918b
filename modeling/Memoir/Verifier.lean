import Memoir.AcyclicGraph
import Memoir.Program

/-! What LLVM's verifier asks of a function with mutable operations, as a check that can be run. -/
namespace Memoir
open Dominance

namespace Function

variable (function : Function) (tree : DominatorTree function.graph)

def isDefined (n : Name) : Bool :=
  (List.range function.arguments).any (n = .argument ·) || function.blocks.any (·.names.contains n)

def isAvailable (n : Name) (b k : Nat) : Bool :=
  (List.range function.arguments).any (n = .argument ·) ||
  (function.blocks[b]?).any (fun block =>
    (block.phis.map Prod.fst ++ (block.body.take k).map Prod.fst).contains n) ||
  (List.range function.blocks.length).any fun source =>
    (function.blocks[source]?).any (·.names.contains n) && tree.dominates source b && source ≠ b

def isUsable (b k : Nat) (operand : Value) : Bool :=
  operand ≠ .null && operand.name?.all fun n => (tree.frontier b).isNone || function.isAvailable tree n b k

def isCollection (operand : Value) : Bool := operand.name?.all function.valueIsCollectionType

def isScalar (scalar : Scalar) : Bool :=
  scalar.name?.all fun n =>
    !function.valueIsCollectionType n && (function.instruction? n).all (!·.isMut)

def isElement : Element → Bool
  | .scalar s => function.isScalar s
  | .collection _ => true

def isOperand (b k : Nat) (operand : Value) : Bool :=
  function.isUsable tree b k operand && function.isCollection operand

def verifiesInst (b k : Nat) (n : Name) (inst : Inst) : Bool :=
  !inst.isSsa && !inst.isBackend &&
  (!inst.isMut || function.valueIsCollectionType n == inst.isSplit) &&
  inst.operands.all (function.isOperand tree b k) && inst.scalars.all function.isScalar &&
  inst.element.all function.isElement && inst.names.all function.isDefined

def verifiesTerminator (b k : Nat) (terminator : Terminator) : Bool :=
  terminator.operands.all (function.isOperand tree b k) && terminator.names.all function.isDefined &&
  match terminator with
  | .ret value => value.all function.isElement
  | .switch selector _ => function.isScalar selector

def verifiesIncoming (n : Name) (source : Nat) (element : Element) : Bool :=
  element.collection?.isSome == function.valueIsCollectionType n &&
  element.collection?.all function.isCollection && function.isElement element &&
  element.name?.all function.isDefined &&
  element.collection?.all fun value => (function.blocks[source]?).all fun pred =>
    function.isUsable tree source pred.body.length value

def verifiesPhi (b : Nat) (n : Name) (phi : Phi) : Bool :=
  decide ((phi.incoming.map Prod.fst).Perm (function.predecessors b)) &&
  phi.incoming.all (fun entry => function.verifiesIncoming tree n entry.1 entry.2) &&
  phi.incoming.all fun first => phi.incoming.all fun second => first.1 ≠ second.1 || first.2 = second.2

def verifiesBlock (b : Nat) (block : BasicBlock) : Bool :=
  block.phis.map Prod.fst == (List.range block.phis.length).map (.phi b) &&
  block.body.map Prod.fst == (List.range block.body.length).map (.inst b) &&
  block.phis.all (fun entry => function.verifiesPhi tree b entry.1 entry.2) &&
  block.body.zipIdx.all (fun entry => function.verifiesInst tree b entry.2 entry.1.1 entry.1.2) &&
  function.verifiesTerminator tree b block.body.length block.terminator &&
  (function.successors b).all fun t => t < function.blocks.length && t ≠ 0

def verifies : Bool :=
  0 < function.blocks.length && function.blocks.zipIdx.all fun entry => function.verifiesBlock tree entry.2 entry.1

section
variable {function : Function} {tree : DominatorTree function.graph} {b k : Nat} {n : Name}

theorem defined_of_isDefined (is : function.isDefined n = true) : function.Defined n := by
  rw [isDefined,Bool.or_eq_true] at is
  rcases is with argument | named
  · obtain ⟨i,bound,same⟩ := List.any_eq_true.mp argument
    exact .inl ⟨i,List.mem_range.mp bound,of_decide_eq_true same⟩
  · obtain ⟨block,inBlocks,named⟩ := List.any_eq_true.mp named
    exact .inr ⟨block,inBlocks,List.contains_iff_mem.mp named⟩

theorem available_of_isAvailable (is : function.isAvailable tree n b k = true) :
    function.Available n b k := by
  simp only [isAvailable,Bool.or_eq_true] at is
  rcases is with (argument | here) | above
  · obtain ⟨i,bound,same⟩ := List.any_eq_true.mp argument
    exact .inl ⟨i,List.mem_range.mp bound,of_decide_eq_true same⟩
  · obtain ⟨block,found,named⟩ := (Option.any_eq_true _ _).mp here
    exact .inr (.inl ⟨block,found,List.contains_iff_mem.mp named⟩)
  · obtain ⟨source,_,above⟩ := List.any_eq_true.mp above
    simp only [Bool.and_eq_true,decide_eq_true_eq] at above
    obtain ⟨block,found,named⟩ := (Option.any_eq_true _ _).mp above.1.1
    exact .inr (.inr ⟨source,block,found,List.contains_iff_mem.mp named,
      (tree.dominates_iff _ _).mp above.1.2,above.2⟩)

theorem usable_of_isUsable {operand : Value} (is : function.isUsable tree b k operand = true) :
    function.Usable b k operand := by
  rw [isUsable,Bool.and_eq_true,decide_eq_true_eq] at is
  refine ⟨is.1,?_⟩
  rintro n rfl reachable
  have named := is.2
  rw [Value.name?,Option.all_some,Bool.or_eq_true,Option.isNone_iff_eq_none] at named
  refine available_of_isAvailable (named.resolve_left fun none => ?_)
  have some := (tree.frontier_reachable b).mpr reachable
  rw [none] at some
  exact Bool.false_ne_true some

theorem isScalar_of {scalar : Scalar} (is : function.isScalar scalar = true) {m : Name}
    (named : scalar = .name m) : function.IsScalar m := by
  subst named
  simp only [isScalar,Scalar.name?,Option.all_some,Bool.and_eq_true,Bool.not_eq_true'] at is
  refine ⟨is.1,fun inst found => ?_⟩
  simpa [found] using is.2

theorem collections_of {operands : List Value} (all : operands.all (function.isOperand tree b k) = true)
    {operand : Value} (used : operand ∈ operands) : function.Usable b k operand ∧
      ∀ m,operand = .name m → function.valueIsCollectionType m = true := by
  have is := List.all_eq_true.mp all operand used
  rw [isOperand,Bool.and_eq_true] at is
  refine ⟨usable_of_isUsable is.1,?_⟩
  rintro m rfl
  exact is.2

structure VerifiedInst (function : Function) (b k : Nat) (n : Name) (inst : Inst) : Prop where
  source : inst.isSsa = false ∧ inst.isBackend = false
  result : inst.isMut = true → function.valueIsCollectionType n = inst.isSplit
  operands : ∀ operand ∈ inst.operands,function.Usable b k operand ∧
    ∀ m,operand = .name m → function.valueIsCollectionType m = true
  scalars : ∀ m,.name m ∈ inst.scalars → function.IsScalar m
  element : ∀ m,inst.element = some (.scalar (.name m)) → function.IsScalar m
  names : ∀ m ∈ inst.names,function.Defined m

theorem verifiesInst_spec {inst : Inst} (verified : function.verifiesInst tree b k n inst = true) :
    VerifiedInst function b k n inst := by
  simp only [verifiesInst,Bool.and_eq_true,Bool.not_eq_true'] at verified
  obtain ⟨⟨⟨⟨⟨⟨isSsa,isBackend⟩,result⟩,operands⟩,scalars⟩,element⟩,names⟩ := verified
  refine ⟨⟨isSsa,isBackend⟩,?_,fun operand => collections_of operands,?_,?_,?_⟩
  · intro isMut
    simpa [isMut] using result
  · exact fun m used => isScalar_of (List.all_eq_true.mp scalars _ used) rfl
  · intro m written
    rw [written,Option.all_some] at element
    exact isScalar_of element rfl
  · exact fun m used => defined_of_isDefined (List.all_eq_true.mp names m used)

structure VerifiedPhi (function : Function) (b : Nat) (n : Name) (phi : Phi) : Prop where
  edges : (phi.incoming.map Prod.fst).Perm (function.predecessors b)
  types : ∀ entry ∈ phi.incoming,entry.2.collection?.isSome = function.valueIsCollectionType n
  collections : ∀ source m,(source,.collection (.name m)) ∈ phi.incoming →
    function.valueIsCollectionType m = true
  scalars : ∀ source m,(source,.scalar (.name m)) ∈ phi.incoming → function.IsScalar m
  names : ∀ entry ∈ phi.incoming,∀ m,entry.2.name? = some m → function.Defined m
  usable : ∀ source value,(source,.collection value) ∈ phi.incoming → ∀ pred,
    function.blocks[source]? = some pred → function.Usable source pred.body.length value
  agree : ∀ source first second,(source,.collection first) ∈ phi.incoming →
    (source,.collection second) ∈ phi.incoming → first = second

theorem verifiesPhi_spec {phi : Phi} (verified : function.verifiesPhi tree b n phi = true) :
    VerifiedPhi function b n phi := by
  simp only [verifiesPhi,Bool.and_eq_true,decide_eq_true_eq,List.all_eq_true] at verified
  obtain ⟨⟨edges,incoming⟩,agree⟩ := verified
  simp only [verifiesIncoming,Bool.and_eq_true,beq_iff_eq] at incoming
  refine ⟨edges,fun entry member => (incoming entry member).1.1.1.1,?_,?_,?_,?_,?_⟩
  · intro source m member
    exact (incoming _ member).1.1.1.2
  · intro source m member
    exact isScalar_of (incoming _ member).1.1.2 rfl
  · intro entry member m named
    have is := (incoming entry member).1.2
    rw [named,Option.all_some] at is
    exact defined_of_isDefined is
  · intro source value member pred found
    have is := (incoming _ member).2
    rw [Element.collection?,Option.all_some,found,Option.all_some] at is
    exact usable_of_isUsable is
  · intro source first second member member'
    simpa using agree _ member _ member'

structure VerifiedTerminator (function : Function) (b k : Nat) (terminator : Terminator) : Prop where
  operands : ∀ operand ∈ terminator.operands,function.Usable b k operand ∧
    ∀ m,operand = .name m → function.valueIsCollectionType m = true
  names : ∀ m ∈ terminator.names,function.Defined m
  returned : ∀ m,terminator = .ret (some (.scalar (.name m))) → function.IsScalar m
  selector : ∀ m targets,terminator = .switch (.name m) targets → function.IsScalar m

theorem verifiesTerminator_spec {terminator : Terminator}
    (verified : function.verifiesTerminator tree b k terminator = true) :
    VerifiedTerminator function b k terminator := by
  simp only [verifiesTerminator,Bool.and_eq_true] at verified
  obtain ⟨⟨operands,names⟩,scalars⟩ := verified
  refine ⟨fun operand => collections_of operands,?_,?_,?_⟩
  · exact fun m used => defined_of_isDefined (List.all_eq_true.mp names m used)
  · rintro m rfl
    exact isScalar_of (show function.isScalar (.name m) = true from scalars) rfl
  · rintro m targets rfl
    exact isScalar_of scalars rfl

structure VerifiedBlock (function : Function) (b : Nat) (block : BasicBlock) : Prop where
  phis_named : block.phis.map Prod.fst = (List.range block.phis.length).map (.phi b)
  body_named : block.body.map Prod.fst = (List.range block.body.length).map (.inst b)
  phis : ∀ n phi,(n,phi) ∈ block.phis → VerifiedPhi function b n phi
  insts : ∀ k n inst,block.body[k]? = some (n,inst) → VerifiedInst function b k n inst
  terminator : VerifiedTerminator function b block.body.length block.terminator
  targets : ∀ t ∈ function.successors b,t < function.blocks.length ∧ t ≠ 0

theorem verifiesBlock_spec {block : BasicBlock} (verified : function.verifiesBlock tree b block = true) :
    VerifiedBlock function b block := by
  simp only [verifiesBlock,Bool.and_eq_true,beq_iff_eq,List.all_eq_true,decide_eq_true_eq] at verified
  obtain ⟨⟨⟨⟨⟨phis_named,body_named⟩,phis⟩,insts⟩,terminator⟩,targets⟩ := verified
  refine ⟨phis_named,body_named,?_,?_,verifiesTerminator_spec terminator,targets⟩
  · exact fun n phi member => verifiesPhi_spec (phis _ member)
  · exact fun k n inst entry => verifiesInst_spec (insts ((n,inst),k) (List.mem_zipIdx_iff_getElem?.mpr entry))

theorem verifies_spec (verified : function.verifies tree = true) : 0 < function.blocks.length ∧
    ∀ b block,function.blocks[b]? = some block → VerifiedBlock function b block := by
  rw [verifies,Bool.and_eq_true,decide_eq_true_eq,List.all_eq_true] at verified
  refine ⟨verified.1,fun b block found => verifiesBlock_spec (verified.2 (block,b) ?_)⟩
  exact List.mem_zipIdx_iff_getElem?.mpr found

theorem VerifiedBlock.inst {block : BasicBlock} (is : VerifiedBlock function b block) {inst : Inst}
    (member : (n,inst) ∈ block.body) : ∃ k,VerifiedInst function b k n inst := by
  obtain ⟨k,entry⟩ := List.mem_iff_getElem?.mp member
  exact ⟨k,is.insts k n inst entry⟩

end

def accepted (function : Function) (tree : DominatorTree function.graph)
    (verified : function.verifies tree = true) : Program :=
  have blocks := (verifies_spec verified).2
  have member : ∀ block ∈ function.blocks,∃ b,VerifiedBlock function b block := by
    intro block inBlocks
    obtain ⟨b,found⟩ := List.mem_iff_getElem?.mp inBlocks
    exact ⟨b,blocks b block found⟩
  { function := function
    phis_named := fun b block found => (blocks b block found).phis_named
    body_named := fun b block found => (blocks b block found).body_named
    source := by
      intro block inBlocks n inst inBody
      obtain ⟨b,is⟩ := member block inBlocks
      obtain ⟨k,is⟩ := is.inst inBody
      exact is.source
    results := by
      intro block inBlocks n inst inBody
      obtain ⟨b,is⟩ := member block inBlocks
      obtain ⟨k,is⟩ := is.inst inBody
      exact is.result
    nonempty := (verifies_spec verified).1
    targets := by
      intro b t edge
      cases found : function.blocks[b]? with
      | none => simp [successors,found] at edge
      | some block => exact (blocks b block found).targets t edge
    incoming := fun b block found n phi inPhis => ((blocks b block found).phis n phi inPhis).edges
    phi_types := by
      intro block inBlocks n phi inPhis
      obtain ⟨b,is⟩ := member block inBlocks
      exact (is.phis n phi inPhis).types
    collections := by
      intro block inBlocks
      obtain ⟨b,is⟩ := member block inBlocks
      refine ⟨fun n inst inBody m used => ?_,fun m used => (is.terminator.operands _ used).2 m rfl,
        fun n phi inPhis => (is.phis n phi inPhis).collections⟩
      obtain ⟨k,is⟩ := is.inst inBody
      exact (is.operands _ used).2 m rfl
    scalars := by
      intro block inBlocks
      obtain ⟨b,is⟩ := member block inBlocks
      refine ⟨fun n inst inBody => ?_,is.terminator.returned,is.terminator.selector,
        fun n phi inPhis => (is.phis n phi inPhis).scalars⟩
      obtain ⟨k,is⟩ := is.inst inBody
      exact ⟨is.scalars,is.element⟩
    ssa := by
      constructor
      · intro b block found k n inst entry operand used
        exact (((blocks b block found).insts k n inst entry).operands operand used).1
      · intro b block found operand used
        exact ((blocks b block found).terminator.operands operand used).1
      · intro block inBlocks n phi inPhis
        obtain ⟨b,is⟩ := member block inBlocks
        exact (is.phis n phi inPhis).usable
      · intro block inBlocks n phi inPhis
        obtain ⟨b,is⟩ := member block inBlocks
        exact (is.phis n phi inPhis).agree
      · intro block inBlocks
        obtain ⟨b,is⟩ := member block inBlocks
        refine ⟨fun n inst inBody => ?_,is.terminator.names,fun n phi inPhis => (is.phis n phi inPhis).names⟩
        obtain ⟨k,is⟩ := is.inst inBody
        exact is.names }

end Function

end Memoir
