import Memoir.ConstructionPreserves
import Memoir.DestructionSizes

/-! What destruction finds in a constructed function: the versions that it coalesces, the end markers of
appends, and the names that one instruction only refers to. -/
namespace Memoir

/-- The new names that destruction coalesces with the operand that they are made from. -/
def Inst.renewed : Inst → List (Nat × Value)
  | mutIndexWrite _ object _ | mutAssocWrite _ object _ => [(0,object)]
  | mutSeqSwapWithin collection _ _ _ => [(0,collection)]
  | mutAssocInsert collection _ | mutAssocRemove collection _ => [(0,collection)]
  | mutSeqSwap fromCollection _ _ toCollection _ => [(1,fromCollection),(2,toCollection)]
  | _ => []

namespace Construction.RoundTrip
open Dominance Destruction
open Coalescing (Coalesced Acyclic ChainEnd)

theorem renewed_redefines {inst : Inst} {k : Nat} {operand operand' : Value}
    (renewed : (k,operand) ∈ inst.renewed) (redefines : (operand',k) ∈ inst.redefines) :
    operand' = operand := by
  cases inst <;> simp_all [Inst.renewed,Inst.redefines,Inst.isMut,Inst.mutated]
  split_ifs at redefines with same <;> simp_all
  rcases renewed with ⟨rfl,rfl⟩ | ⟨rfl,rfl⟩ <;> simp_all

theorem renewed_unique {inst : Inst} {k : Nat} {operand operand' : Value}
    (renewed : (k,operand) ∈ inst.renewed) (renewed' : (k,operand') ∈ inst.renewed) :
    operand = operand' := by
  cases inst <;> simp_all [Inst.renewed]
  rcases renewed with ⟨rfl,rfl⟩ | ⟨rfl,rfl⟩ <;> simp_all

theorem renewed_mutated {inst : Inst} {k : Nat} {operand : Value} (renewed : (k,operand) ∈ inst.renewed) :
    operand ∈ inst.mutated ∧ inst.isMut = true := by
  cases inst <;> simp_all [Inst.renewed,Inst.mutated,Inst.isMut]
  rcases renewed with ⟨rfl,rfl⟩ | ⟨rfl,rfl⟩ <;> simp

section
variable {program : Program} {tree : Tree program.function} {inserted : List (Name × List Nat)}
  {tree' : Tree (constructed program.function tree inserted)}

theorem mem_body {b : Nat} (reachable : program.function.graph.Reachable b) {block : BasicBlock}
    (found : program.function.blocks[b]? = some block) {entry : Name × Inst} :
    entry ∈ (constructedBlock program.function tree inserted b block).body ↔
      ∃ i inst, program.function.instruction? (.inst b i) = some inst ∧
        entry ∈ translate (nearest program.function tree inserted (.before b i)) b i (.inst b i) inst := by
  rw [constructedBlock_body reachable,List.mem_flatten]
  constructor
  · rintro ⟨group,inBody,member⟩
    obtain ⟨i,bound,rfl⟩ := List.mem_iff_getElem.mp inBody
    have bound' : i < block.body.length := by simpa [translatedBody] using bound
    have at_ := List.getElem?_eq_getElem bound'
    have named : block.body[i].1 = .inst b i := program.name_at found at_
    refine ⟨i,block.body[i].2,Function.instruction?_eq found at_,?_⟩
    simp only [translatedBody,List.getElem_mapIdx] at member
    rwa [named] at member
  · rintro ⟨i,inst,at_,member⟩
    obtain ⟨block',n,found',entry'⟩ := Function.instruction?_eq_some at_
    obtain rfl := Option.some.inj (found'.symm.trans found)
    obtain rfl := program.name_at found entry'
    exact ⟨_,List.mem_of_getElem? (translatedBody_getElem entry'),member⟩

theorem mem_visited {entry : Name × Inst} :
    entry ∈ visited (constructed program.function tree inserted) tree' ↔
      ∃ b i inst, program.function.graph.Reachable b ∧
        program.function.instruction? (.inst b i) = some inst ∧
          entry ∈ translate (nearest program.function tree inserted (.before b i)) b i (.inst b i) inst := by
  simp only [visited,List.mem_flatMap,List.mem_filterMap,tree'.preorder_reachable,constructed_graph,
    constructed_block,Option.map_eq_some_iff]
  constructor
  · rintro ⟨_,⟨b,reachable,block,found,rfl⟩,member⟩
    obtain ⟨i,inst,at_,inCode⟩ := (mem_body reachable found).mp member
    exact ⟨b,i,inst,reachable,at_,inCode⟩
  · rintro ⟨b,i,inst,reachable,at_,inCode⟩
    obtain ⟨block,n,found,_⟩ := Function.instruction?_eq_some at_
    exact ⟨_,⟨b,reachable,block,found,rfl⟩,(mem_body reachable found).mpr ⟨i,inst,at_,inCode⟩⟩

theorem plain_source {b i : Nat} {inst : Inst}
    (at_ : program.function.instruction? (.inst b i) = some inst) :
    inst.isSsa = false ∧ inst.isBackend = false := by
  obtain ⟨block,n,found,entry⟩ := Function.instruction?_eq_some at_
  exact program.source block (List.mem_of_getElem? found) n inst (List.mem_of_getElem? entry)

theorem translate_extracted {version : Name → Name} {b i : Nat} {m n pair : Name} {second : Bool}
    {inst : Inst} (kind : inst.isSsa = false ∧ inst.isBackend = false) :
    (n,.extractValue pair second) ∈ translate version b i m inst ↔
      ∃ x first last y toFirst, inst = .mutSeqSwap x first last y toFirst ∧ pair = .ssa b i 0 ∧
        n = .ssa b i (if second then 2 else 1) := by
  cases inst <;> simp_all [translate,Inst.isSsa,Inst.isBackend]
  cases second <;> simp [and_comm]

/-- What is extracted from a pair of the new function. -/
theorem mem_extractions {pair n : Name} {second : Bool} :
    (n,second) ∈ extractions (constructed program.function tree inserted) pair ↔
      ∃ b i x first last y toFirst, program.function.graph.Reachable b ∧
        program.function.instruction? (.inst b i) = some (.mutSeqSwap x first last y toFirst) ∧
          pair = .ssa b i 0 ∧ n = .ssa b i (if second then 2 else 1) := by
  simp only [extractions,List.mem_flatMap,List.mem_filterMap]
  constructor
  · rintro ⟨_,inBlocks,⟨m,inst'⟩,member,extracted⟩
    obtain ⟨b,at_⟩ := List.mem_iff_getElem?.mp inBlocks
    rw [constructed_block,Option.map_eq_some_iff] at at_
    obtain ⟨block,found,rfl⟩ := at_
    cases inst' <;> simp only [reduceCtorEq,Option.ite_none_right_eq_some,Option.some.injEq,
      Prod.mk.injEq] at extracted
    obtain ⟨rfl,rfl,rfl⟩ := extracted
    by_cases reachable : program.function.graph.Reachable b
    · obtain ⟨i,inst,at_,inCode⟩ := (mem_body reachable found).mp member
      obtain ⟨x,first,last,y,toFirst,rfl,isPair,named⟩ :=
        (translate_extracted (plain_source at_)).mp inCode
      exact ⟨b,i,x,first,last,y,toFirst,reachable,at_,isPair,named⟩
    · rw [(constructedBlock_unreachable reachable block).1] at member
      have kind := program.source block (List.mem_of_getElem? found) _ _ member
      exact absurd kind.1 (by simp [Inst.isSsa])
  · rintro ⟨b,i,x,first,last,y,toFirst,reachable,at_,rfl,rfl⟩
    obtain ⟨block,_,found,_⟩ := Function.instruction?_eq_some at_
    have inCode : (Name.ssa b i (if second then 2 else 1),Inst.extractValue (.ssa b i 0) second) ∈
        translate (nearest program.function tree inserted (.before b i)) b i (.inst b i)
          (.mutSeqSwap x first last y toFirst) :=
      (translate_extracted (plain_source at_)).mpr ⟨x,first,last,y,toFirst,rfl,rfl,rfl⟩
    exact ⟨_,constructed_member found,_,(mem_body reachable found).mpr ⟨i,_,at_,inCode⟩,by simp⟩

theorem mem_coalescedValues {v v' : Value} :
    (v,v') ∈ coalescedValues (constructed program.function tree inserted) tree' ↔
      ∃ b i inst k operand, program.function.graph.Reachable b ∧
        program.function.instruction? (.inst b i) = some inst ∧ (k,operand) ∈ inst.renewed ∧
          v = .name (.ssa b i k) ∧
            v' = rename (nearest program.function tree inserted (.before b i)) operand := by
  have code : ∀ {b i inst}, program.function.graph.Reachable b →
      program.function.instruction? (.inst b i) = some inst →
      ((∃ entry ∈ translate (nearest program.function tree inserted (.before b i)) b i (.inst b i) inst,
        (v,v') ∈ coalesces (constructed program.function tree inserted) entry) ↔
      ∃ k operand, (k,operand) ∈ inst.renewed ∧ v = .name (.ssa b i k) ∧
        v' = rename (nearest program.function tree inserted (.before b i)) operand) := by
    intro b i inst reachable at_
    have kind := plain_source at_
    cases inst <;> simp only [Inst.isSsa,Inst.isBackend,Bool.true_eq_false,false_and,and_false] at kind
    case mutSeqSwap x first last y toFirst =>
      have both : ∀ n second, (n,second) ∈ extractions (constructed program.function tree inserted)
          (.ssa b i 0) ↔ n = .ssa b i (if second then 2 else 1) := by
        intro n second
        rw [mem_extractions]
        constructor
        · rintro ⟨b',i',_,_,_,_,_,_,_,same,rfl⟩
          obtain ⟨rfl,rfl,_⟩ := Name.ssa.inj same
          rfl
        · exact fun named => ⟨b,i,x,first,last,y,toFirst,reachable,at_,rfl,named⟩
      simp only [translate,List.mem_cons,List.not_mem_nil,or_false,exists_eq_or_imp,exists_eq_left,coalesces,
        List.mem_map,Prod.exists,both,Inst.renewed,Prod.mk.injEq]
      constructor
      · rintro ⟨n,_ | _,named,rfl,rfl⟩
        · exact ⟨1,x,.inl ⟨rfl,rfl⟩,congrArg Value.name named,rfl⟩
        · exact ⟨2,y,.inr ⟨rfl,rfl⟩,congrArg Value.name named,rfl⟩
      · rintro ⟨k,operand,⟨rfl,rfl⟩ | ⟨rfl,rfl⟩,rfl,rfl⟩
        · exact ⟨_,false,rfl,rfl,rfl⟩
        · exact ⟨_,true,rfl,rfl,rfl⟩
    all_goals simp [translate,coalesces,Inst.renewed]
  simp only [coalescedValues,List.mem_flatMap,mem_visited]
  constructor
  · rintro ⟨entry,⟨b,i,inst,reachable,at_,inCode⟩,member⟩
    obtain ⟨k,operand,renewed,isKey,isValue⟩ := (code reachable at_).mp ⟨entry,inCode,member⟩
    exact ⟨b,i,inst,k,operand,reachable,at_,renewed,isKey,isValue⟩
  · rintro ⟨b,i,inst,k,operand,reachable,at_,renewed,isKey,isValue⟩
    obtain ⟨entry,inCode,member⟩ := (code reachable at_).mpr ⟨k,operand,renewed,isKey,isValue⟩
    exact ⟨entry,⟨b,i,inst,reachable,at_,inCode⟩,member⟩

theorem translate_end {version : Name → Name} {b i : Nat} {m n : Name} {inst : Inst}
    (kind : inst.isSsa = false ∧ inst.isBackend = false) : (n,.endInst) ∈ translate version b i m inst ↔
      ∃ collection appended, inst = .mutSeqAppend collection appended ∧ n = .ssa b i 0 := by
  cases inst <;> simp_all [translate,Inst.isSsa,Inst.isBackend]

theorem mem_endMarkers {n : Name} :
    n ∈ endMarkers (constructed program.function tree inserted) tree' ↔
      ∃ b i collection appended, program.function.graph.Reachable b ∧
        program.function.instruction? (.inst b i) = some (.mutSeqAppend collection appended) ∧
          n = .ssa b i 0 := by
  simp only [endMarkers,List.mem_filterMap,mem_visited]
  constructor
  · rintro ⟨⟨m,inst'⟩,⟨b,i,inst,reachable,at_,inCode⟩,marker⟩
    cases inst' <;> simp only [reduceCtorEq,Option.some.injEq] at marker
    subst marker
    obtain ⟨collection,appended,rfl,named⟩ := (translate_end (plain_source at_)).mp inCode
    exact ⟨b,i,collection,appended,reachable,at_,named⟩
  · rintro ⟨b,i,collection,appended,reachable,at_,rfl⟩
    exact ⟨_,⟨b,i,_,reachable,at_,(translate_end (plain_source at_)).mpr ⟨collection,appended,rfl,rfl⟩⟩,rfl⟩

theorem append_marker {b i : Nat} {collection appended : Value}
    (reachable : program.function.graph.Reachable b)
    (at_ : program.function.instruction? (.inst b i) = some (.mutSeqAppend collection appended)) :
    .ssa b i 0 ∈ endMarkers (constructed program.function tree inserted) tree' := by
  rw [mem_endMarkers]
  exact ⟨b,i,collection,appended,reachable,at_,rfl⟩

theorem coalesced_source {v v' : Value}
    (step : Coalesced (coalescedValues (constructed program.function tree inserted) tree') v v') :
    ∃ b i inst k operand, program.function.graph.Reachable b ∧
      program.function.instruction? (.inst b i) = some inst ∧ (k,operand) ∈ inst.renewed ∧
        v = .name (.ssa b i k) ∧
          v' = rename (nearest program.function tree inserted (.before b i)) operand := by
  have member := mem_of_lookup step
  rwa [mem_coalescedValues] at member

theorem coalesced_renewed {b i k : Nat} {inst : Inst} {operand : Value}
    (reachable : program.function.graph.Reachable b)
    (at_ : program.function.instruction? (.inst b i) = some inst) (renewed : (k,operand) ∈ inst.renewed) :
    Coalesced (coalescedValues (constructed program.function tree inserted) tree') (.name (.ssa b i k))
      (rename (nearest program.function tree inserted (.before b i)) operand) := by
  have member : (Value.name (.ssa b i k),rename (nearest program.function tree inserted (.before b i))
      operand) ∈ coalescedValues (constructed program.function tree inserted) tree' := by
    rw [mem_coalescedValues]
    exact ⟨b,i,inst,k,operand,reachable,at_,renewed,rfl,rfl⟩
  obtain ⟨v,found⟩ : ∃ v, (coalescedValues (constructed program.function tree inserted)
      tree').lookup (.name (.ssa b i k)) = some v := by
    refine Option.isSome_iff_exists.mp (Option.isSome_iff_ne_none.mpr fun none => ?_)
    have apart := List.lookup_eq_none_iff.mp none _ member
    simp at apart
  obtain ⟨b',i',inst',k',operand',_,at',renewed',same,rfl⟩ := coalesced_source found
  obtain ⟨rfl,rfl,rfl⟩ := Name.ssa.inj (Value.name.inj same)
  obtain rfl := Option.some.inj (at_.symm.trans at')
  rw [renewed_unique renewed renewed']
  exact found

section
variable (renamable : Renamable program tree) (placed : Placed program inserted)
  (closed : Closed tree inserted)
include renamable placed closed

/-- The nearest version of an operand of an instruction. -/
theorem operand_nearest {b i : Nat} {inst : Inst} {x : Name}
    (reachable : program.function.graph.Reachable b)
    (at_ : program.function.instruction? (.inst b i) = some inst) (used : .name x ∈ inst.operands) :
    Nearest program.function tree inserted x (.before b i)
      (nearest program.function tree inserted (.before b i) x) := by
  obtain ⟨block,n,found,entry⟩ := Function.instruction?_eq_some at_
  obtain ⟨bound,_⟩ := List.getElem?_eq_some_iff.mp entry
  exact nearest_of_ready placed (renamable.walkable placed closed) reachable found (Nat.le_of_lt bound)
    (ready_operand at_ used reachable)

end

/-- A name of the program, or the version of one that is nearest to a point. -/
def Refers (program : Program) (tree : Tree program.function) (inserted : List (Name × List Nat))
    (m : Name) : Prop :=
  ∃ x, ¬Name.IsNew x ∧ (m = x ∨ ∃ p, m = nearest program.function tree inserted p x)

theorem Refers.old {m : Name} (defined : program.function.Defined m) : Refers program tree inserted m :=
  ⟨m,Program.not_isNew program defined,.inl rfl⟩

theorem Refers.renamed {m : Name} {operand : Value} {p : Point}
    (old : ∀ x, operand = .name x → ¬Name.IsNew x)
    (is : rename (nearest program.function tree inserted p) operand = .name m) :
    Refers program tree inserted m := by
  cases operand with
  | name x => exact ⟨x,old x rfl,.inr ⟨p,(Value.name.inj is).symm⟩⟩
  | constant _ => exact absurd is (by simp [rename])
  | null => exact absurd is (by simp [rename])

theorem scalar_old {b i : Nat} {inst : Inst} {x : Name}
    (at_ : program.function.instruction? (.inst b i) = some inst) (used : .name x ∈ inst.scalars) :
    ¬Name.IsNew x := by
  obtain ⟨block,n,found,inBody⟩ := Function.instruction?_eq_some at_
  refine Program.not_isNew program ((program.ssa.defined block (List.mem_of_getElem? found)).1 n inst
    (List.mem_of_getElem? inBody) x ?_)
  simp only [Inst.names,List.mem_append,List.mem_filterMap]
  exact .inr ⟨_,used,rfl⟩

end
end Construction.RoundTrip
end Memoir
