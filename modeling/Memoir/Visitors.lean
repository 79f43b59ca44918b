import Memoir.Renaming

/-! Each visitor emits the translation of its instruction and keeps the chains of
reaching definitions. -/
namespace Memoir.Construction
open Dominance

def Inst.NoConstant (inst : Inst) : Prop := ∀ k, .constant k ∉ inst.visited

theorem Inst.visited_operands {inst : Inst} {operand : Value} (member : operand ∈ inst.visited) :
    operand ∈ inst.operands := by
  cases inst <;>
    simp only [Inst.visited,Inst.isMut,Inst.operands,Inst.mutated,Inst.read,List.mem_append,
      if_true,Bool.false_eq_true,if_false,List.not_mem_nil] at member ⊢ <;> tauto

section
variable {program : Program} {tree : Tree program.function} {inserted : List (Name × List Nat)}
  (placed : Placed program inserted) {b i : Nat}
  (reachable : program.function.graph.Reachable b) {inst : Inst}
  (at_ : program.function.instruction? (.inst b i) = some inst)
include at_

theorem visited_name (noConstant : Inst.NoConstant inst) {operand : Value}
    (member : operand ∈ inst.visited) : ∃ x, operand = .name x ∧ .name x ∈ inst.operands := by
  have used := Inst.visited_operands member
  obtain ⟨block,n,found,entry⟩ := Function.instruction?_eq_some at_
  cases operand with
  | name x => exact ⟨x,rfl,used⟩
  | constant k => exact absurd member (noConstant k)
  | null => exact absurd rfl (program.ssa.operands b block found i n inst entry _ used).1

theorem result_variable (isMut : inst.isMut = true) (isSplit : inst.isSplit = false) :
    .inst b i ∉ memoirNames program.function := by
  intro variable_
  obtain ⟨block,n,found,entry⟩ := Function.instruction?_eq_some at_
  have isResult := program.results block (List.mem_of_getElem? found) n inst
    (List.mem_of_getElem? entry) isMut
  rw [program.name_at found entry,(mem_memoirNames.mp variable_).1,isSplit] at isResult
  exact absurd isResult (by simp)

theorem firstVersion_inst (isSplit : inst.isSplit = false) :
    firstVersion program.function (.inst b i) = .inst b i := by
  simp [firstVersion,Function.splitResult,at_,isSplit]

include placed reachable

/-- Nothing is redefined; a result keeps its own name. -/
theorem chained_read {reaching : Reaching} (redefines : inst.redefines = [])
    (isSplit : inst.isSplit = false)
    (all : AllChained program tree inserted reaching (.before b i)) :
    AllChained program tree inserted reaching (.before b (i + 1)) := by
  refine chained_next placed reachable at_ all ?_ ?_ fun _ _ _ _ => rfl
  · intro x k member
    rw [redefines] at member
    exact absurd member List.not_mem_nil
  · intro variable_
    rw [firstVersion_inst at_ isSplit]
    refine (all _ variable_).unmet ?_
    rw [firstVersion_inst at_ isSplit]
    exact not_early_site rfl

/-- One operand is redefined, its new version linked to the nearest one. -/
theorem chained_redefine {reaching : Reaching} {x : Name} {k : Nat}
    (redefines : inst.redefines = [(.name x,k)]) (silent : .inst b i ∉ memoirNames program.function)
    (all : AllChained program tree inserted reaching (.before b i)) :
    AllChained program tree inserted
      (setReachingDefinition (setReachingDefinition reaching (.name x) (.name (.ssa b i k)))
        (.name (.ssa b i k)) (.name (nearest program.function tree inserted (.before b i) x)))
      (.before b (i + 1)) := by
  have member : (Value.name x,k) ∈ inst.redefines := by simp [redefines]
  have variable_ := operand_variable at_ (Inst.mutated_operands (Inst.redefines_mutated member))
  have apart : Value.name x ≠ .name (.ssa b i k) := by
    rintro ⟨⟩
    exact Program.not_isNew_variable variable_ trivial
  refine chained_next placed reachable at_ all ?_ (fun this => absurd this silent) ?_
  · intro y k' member'
    simp only [redefines,List.mem_singleton,Prod.mk.injEq,Value.name.injEq] at member'
    obtain ⟨rfl,rfl⟩ := member'
    exact ⟨by rw [lookup_set_ne apart,lookup_set_self],lookup_set_self _ _ _⟩
  · intro m _ notNew notRedefined
    rw [lookup_set_ne,lookup_set_ne]
    · rintro ⟨⟩
      exact notRedefined k member
    · rintro ⟨⟩
      exact notNew k rfl

theorem visitMut_spec {reaching : Reaching} {x : Name}
    (redefines : inst.redefines = [(.name x,0)])
    (silent : .inst b i ∉ memoirNames program.function) (build : Value → Inst)
    (all : AllChained program tree inserted reaching (.before b i)) :
    ∃ after, visitMut tree reaching b i (.name x) build =
        some (after,[(.ssa b i 0,
          build (.name (nearest program.function tree inserted (.before b i) x)))]) ∧
      AllChained program tree inserted after (.before b (i + 1)) := by
  have member : (Value.name x,0) ∈ inst.redefines := by simp [redefines]
  have operand := Inst.mutated_operands (Inst.redefines_mutated member)
  obtain ⟨found,all⟩ := update_all placed reachable rfl (ready_operand at_ operand reachable) all
  refine ⟨_,?_,chained_redefine placed reachable at_ redefines silent all⟩
  simp [visitMut,found]

theorem visitRead_spec {reaching : Reaching} {x : Name} {n : Name} (redefines : inst.redefines = [])
    (isSplit : inst.isSplit = false) (operand : .name x ∈ inst.operands) (build : Value → Inst)
    (all : AllChained program tree inserted reaching (.before b i)) :
    ∃ after, visitRead tree reaching b i n (.name x) build =
        some (after,[(n,build (.name (nearest program.function tree inserted (.before b i) x)))]) ∧
      AllChained program tree inserted after (.before b (i + 1)) := by
  obtain ⟨found,all⟩ := update_all placed reachable rfl (ready_operand at_ operand reachable) all
  refine ⟨_,?_,chained_read placed reachable at_ redefines isSplit all⟩
  simp [visitRead,found]

theorem visitInstruction_spec {reaching : Reaching} (operands : List Value)
    (redefines : inst.redefines = []) (isSplit : inst.isSplit = false)
    (subset : ∀ operand ∈ operands, operand ∈ inst.operands) (build : List Value → Inst)
    (all : AllChained program tree inserted reaching (.before b i)) :
    ∃ after, visitInstruction tree reaching b i (.inst b i) operands build =
        some (after,[(.inst b i,
          build (operands.map (rename (nearest program.function tree inserted (.before b i)))))]) ∧
      AllChained program tree inserted after (.before b (i + 1)) := by
  obtain ⟨after,renamed,all⟩ := renameOperands_spec placed reachable rfl operands reaching all
    fun x member => ready_operand at_ (subset _ member) reachable
  refine ⟨_,by simp only [visitInstruction,renamed,Option.bind_eq_bind,Option.bind_some]; rfl,?_⟩
  have next := chained_read placed reachable at_ redefines isSplit all
  split_ifs with isCollection
  · intro x variable_
    refine (next x variable_).frame ?_ fun v new _ => lookup_set_ne ?_
    · by_cases same : x = .inst b i
      · subst same
        have unmet := (all _ variable_).unmet (by
          rw [firstVersion_inst at_ isSplit]
          exact not_early_site rfl)
        rw [lookup_set_self,unmet]
      · exact lookup_set_ne fun same' => same (Value.name.inj same')
    · rintro ⟨⟩
      exact new
  · exact next

theorem visitCollection_spec {reaching : Reaching} {collection : Value}
    (redefines : inst.redefines = []) (isSplit : inst.isSplit = false)
    (operand : collection ∈ inst.operands) (build : Value → Inst)
    (all : AllChained program tree inserted reaching (.before b i)) :
    ∃ after, visitInstruction tree reaching b i (.inst b i) [collection]
          (fun | [c] => build c | _ => build .null) =
        some (after,[(.inst b i,
          build (rename (nearest program.function tree inserted (.before b i)) collection))]) ∧
      AllChained program tree inserted after (.before b (i + 1)) :=
  visitInstruction_spec placed reachable at_ [collection] redefines isSplit (by simpa using operand)
    _ all

theorem visitMutSeqSwap_spec {reaching : Reaching} {x y : Name} {first last toFirst : Scalar}
    (is : inst = .mutSeqSwap (.name x) first last (.name y) toFirst)
    (used : .name x ∈ inst.operands) (used' : .name y ∈ inst.operands)
    (silent : .inst b i ∉ memoirNames program.function)
    (all : AllChained program tree inserted reaching (.before b i)) :
    ∃ after, visit tree reaching b i (.inst b i) inst =
        some (after,translate (nearest program.function tree inserted (.before b i)) b i
          (.inst b i) inst) ∧
      AllChained program tree inserted after (.before b (i + 1)) := by
  subst is
  have ready : Ready program tree x (.before b i) := ready_operand at_ used reachable
  have ready' : Ready program tree y (.before b i) := ready_operand at_ used' reachable
  obtain ⟨found,all⟩ := update_all placed reachable rfl ready all
  obtain ⟨found',all⟩ := update_all placed reachable rfl ready' all
  refine ⟨_,by simp only [visit,visitMutSeqSwapInst,found,found',translate,rename,
    Option.bind_eq_bind,Option.bind_some]; rfl,?_⟩
  have old := Program.not_isNew_variable ready.1
  have old' := Program.not_isNew_variable ready'.1
  have new : ∀ k, x ≠ .ssa b i k ∧ y ≠ .ssa b i k :=
    fun k => ⟨by rintro rfl; exact old trivial,by rintro rfl; exact old' trivial⟩
  refine chained_next placed reachable at_ all ?_ (fun this => absurd this silent) ?_
  · intro z k member
    simp only [Inst.redefines] at member
    split_ifs at member with same
    · obtain rfl := Value.name.inj same
      simp only [List.mem_singleton,Prod.mk.injEq,Value.name.injEq] at member
      obtain ⟨rfl,rfl⟩ := member
      simp [lookup_set,(new 2).1]
    · simp only [List.mem_cons,Prod.mk.injEq,Value.name.injEq,List.not_mem_nil,or_false]
        at member
      have apart : x ≠ y := fun this => same (congrArg _ this)
      rcases member with ⟨rfl,rfl⟩ | ⟨rfl,rfl⟩
      · simp [lookup_set,new,(new _).2.symm,apart]
      · simp [lookup_set,new]
  · intro m _ notNew notRedefined
    have mx : m ≠ x := by
      rintro rfl
      by_cases same : m = y
      · exact notRedefined 2 (by simp [Inst.redefines,same])
      · exact notRedefined 1 (by simp [Inst.redefines,same])
    have my : m ≠ y := by
      rintro rfl
      by_cases same : x = m
      · exact notRedefined 2 (by simp [Inst.redefines,same])
      · exact notRedefined 2 (by simp [Inst.redefines,same])
    simp [lookup_set,mx,my,notNew]

theorem visitMutSeqSplit_spec {reaching : Reaching} {x : Name} {first last : Scalar}
    (is : inst = .mutSeqSplit (.name x) first last) (used : .name x ∈ inst.operands)
    (all : AllChained program tree inserted reaching (.before b i)) :
    ∃ after, visit tree reaching b i (.inst b i) inst =
        some (after,translate (nearest program.function tree inserted (.before b i)) b i
          (.inst b i) inst) ∧
      AllChained program tree inserted after (.before b (i + 1)) := by
  subst is
  have ready : Ready program tree x (.before b i) := ready_operand at_ used reachable
  obtain ⟨found,all⟩ := update_all placed reachable rfl ready all
  refine ⟨_,by simp only [visit,visitMutSeqSplitInst,found,translate,rename,
    Option.bind_eq_bind,Option.bind_some]; rfl,?_⟩
  have new : ∀ k, x ≠ .ssa b i k := fun k => by
    rintro rfl
    exact Program.not_isNew_variable ready.1 trivial
  have apart : x ≠ .inst b i := by
    rintro rfl
    refine not_dominates_site tree ?_ ready.2
    rw [firstVersion_site]
    rfl
  refine chained_next placed reachable at_ all ?_ (fun _ => ?_) ?_
  · intro z k member
    simp only [Inst.redefines,List.mem_singleton,Prod.mk.injEq,Value.name.injEq] at member
    obtain ⟨rfl,rfl⟩ := member
    simp [lookup_set,new]
  · have first : firstVersion program.function (.inst b i) = .ssa b i 0 := by
      simp [firstVersion,Function.splitResult,at_,Inst.isSplit]
    simp [lookup_set,first,apart.symm]
  · intro m notResult notNew notRedefined
    have mx : m ≠ x := by
      rintro rfl
      exact notRedefined 1 (by simp [Inst.redefines])
    simp [lookup_set,mx,notResult,notNew]

theorem visit_spec {reaching : Reaching} (noConstant : Inst.NoConstant inst)
    (all : AllChained program tree inserted reaching (.before b i)) :
    ∃ after, visit tree reaching b i (.inst b i) inst =
        some (after,translate (nearest program.function tree inserted (.before b i)) b i
          (.inst b i) inst) ∧
      AllChained program tree inserted after (.before b (i + 1)) := by
  have kind : inst.isSsa = false ∧ inst.isBackend = false := by
    obtain ⟨block,n,found,entry⟩ := Function.instruction?_eq_some at_
    exact program.source block (List.mem_of_getElem? found) n inst (List.mem_of_getElem? entry)
  have name : ∀ operand ∈ inst.visited, ∃ x, operand = .name x ∧ .name x ∈ inst.operands :=
    fun operand => visited_name at_ noConstant
  have silent := result_variable at_
  cases inst with
  | mutIndexWrite value object index =>
    obtain ⟨x,rfl,_⟩ := name object (by simp [Inst.visited,Inst.isMut,Inst.mutated])
    exact visitMut_spec placed reachable at_ rfl (silent rfl rfl)
      (fun object => .indexWrite value object index) all
  | mutAssocWrite value object key =>
    obtain ⟨x,rfl,_⟩ := name object (by simp [Inst.visited,Inst.isMut,Inst.mutated])
    exact visitMut_spec placed reachable at_ rfl (silent rfl rfl)
      (fun object => .assocWrite value object key) all
  | mutSeqInsert value collection index =>
    obtain ⟨x,rfl,_⟩ := name collection (by simp [Inst.visited,Inst.isMut,Inst.mutated])
    exact visitMut_spec placed reachable at_ rfl (silent rfl rfl)
      (fun base => .seqInsert value base index) all
  | mutSeqRemove collection first last =>
    obtain ⟨x,rfl,_⟩ := name collection (by simp [Inst.visited,Inst.isMut,Inst.mutated])
    exact visitMut_spec placed reachable at_ rfl (silent rfl rfl)
      (fun base => .seqRemove base first last) all
  | mutSeqSwapWithin collection first last toFirst =>
    obtain ⟨x,rfl,_⟩ := name collection (by simp [Inst.visited,Inst.isMut,Inst.mutated])
    exact visitMut_spec placed reachable at_ rfl (silent rfl rfl)
      (fun base => .seqSwapWithin base first last toFirst) all
  | mutAssocInsert collection key =>
    obtain ⟨x,rfl,_⟩ := name collection (by simp [Inst.visited,Inst.isMut,Inst.mutated])
    exact visitMut_spec placed reachable at_ rfl (silent rfl rfl)
      (fun base => .assocInsert base key) all
  | mutAssocRemove collection key =>
    obtain ⟨x,rfl,_⟩ := name collection (by simp [Inst.visited,Inst.isMut,Inst.mutated])
    exact visitMut_spec placed reachable at_ rfl (silent rfl rfl)
      (fun base => .assocRemove base key) all
  | mutSeqInsertSeq sequence collection index =>
    obtain ⟨x,rfl,used⟩ := name collection (by simp [Inst.visited,Inst.isMut,Inst.mutated])
    obtain ⟨y,rfl,used'⟩ := name sequence (by simp [Inst.visited,Inst.isMut,Inst.mutated,Inst.read])
    obtain ⟨found,all⟩ := update_all placed reachable rfl (ready_operand at_ used reachable) all
    obtain ⟨found',all⟩ := update_all placed reachable rfl (ready_operand at_ used' reachable) all
    refine ⟨_,?_,chained_redefine placed reachable at_ rfl (silent rfl rfl) all⟩
    simp [visit,visitMutSeqInsertSeqInst,found,found',translate,rename]
  | mutSeqAppend collection appended =>
    obtain ⟨x,rfl,used⟩ := name collection (by simp [Inst.visited,Inst.isMut,Inst.mutated])
    obtain ⟨y,rfl,used'⟩ := name appended (by simp [Inst.visited,Inst.isMut,Inst.mutated,Inst.read])
    obtain ⟨found,all⟩ := update_all placed reachable rfl (ready_operand at_ used reachable) all
    obtain ⟨found',all⟩ := update_all placed reachable rfl (ready_operand at_ used' reachable) all
    refine ⟨_,?_,chained_redefine placed reachable at_ rfl (silent rfl rfl) all⟩
    simp [visit,visitMutSeqAppendInst,found,found',translate,rename]
  | mutSeqSwap fromCollection first last toCollection toFirst =>
    obtain ⟨x,rfl,used⟩ := name fromCollection (by simp [Inst.visited,Inst.isMut,Inst.mutated])
    obtain ⟨y,rfl,used'⟩ := name toCollection (by simp [Inst.visited,Inst.isMut,Inst.mutated])
    exact visitMutSeqSwap_spec placed reachable at_ rfl used used' (silent rfl rfl) all
  | mutSeqSplit collection first last =>
    obtain ⟨x,rfl,used⟩ := name collection (by simp [Inst.visited,Inst.isMut,Inst.mutated])
    exact visitMutSeqSplit_spec placed reachable at_ rfl used all
  | indexRead object index =>
    obtain ⟨x,rfl,used⟩ := name object (by simp [Inst.visited])
    exact visitRead_spec placed reachable at_ rfl rfl used
      (fun object => .indexRead object index) all
  | assocRead object key =>
    obtain ⟨x,rfl,used⟩ := name object (by simp [Inst.visited])
    exact visitRead_spec placed reachable at_ rfl rfl used
      (fun object => .assocRead object key) all
  | indexGet object index =>
    obtain ⟨x,rfl,used⟩ := name object (by simp [Inst.visited])
    exact visitRead_spec placed reachable at_ rfl rfl used
      (fun object => .indexGet object index) all
  | assocGet object key =>
    obtain ⟨x,rfl,used⟩ := name object (by simp [Inst.visited])
    exact visitRead_spec placed reachable at_ rfl rfl used
      (fun object => .assocGet object key) all
  | assocHas object key => exact ⟨reaching,rfl,chained_read placed reachable at_ rfl rfl all⟩
  | size collection =>
    exact visitCollection_spec placed reachable at_ rfl rfl
      (by simp [Inst.operands,Inst.mutated,Inst.read]) Inst.size all
  | assocKeys collection =>
    exact visitCollection_spec placed reachable at_ rfl rfl
      (by simp [Inst.operands,Inst.mutated,Inst.read]) Inst.assocKeys all
  | call callee collections scalars =>
    exact visitInstruction_spec placed reachable at_ collections rfl rfl
      (fun operand member => by simp [Inst.operands,Inst.mutated,Inst.read,member])
      (fun values => .call callee values scalars) all
  | seqAlloc length =>
    exact visitInstruction_spec placed reachable at_ [] rfl rfl (by simp)
      (fun _ => .seqAlloc length) all
  | assocAlloc =>
    exact visitInstruction_spec placed reachable at_ [] rfl rfl (by simp) (fun _ => .assocAlloc) all
  | scalar function operands =>
    exact visitInstruction_spec placed reachable at_ [] rfl rfl (by simp)
      (fun _ => .scalar function operands) all
  | backend function collections scalars value => exact absurd kind.2 (by simp [Inst.isBackend])
  | _ => exact absurd kind.1 (by simp [Inst.isSsa])

end

end Memoir.Construction
