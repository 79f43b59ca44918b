import Memoir.RoundTripCode

/-! What destruction makes of a constructed function: a version becomes the end of its chain, and the
code of each instruction of the program becomes calls of the backends. -/
namespace Memoir.Construction.RoundTrip
open Dominance Destruction
open Coalescing (Coalesced Acyclic ChainEnd)

def Ends (program : Program) (tree : Tree program.function) (inserted : List (Name × List Nat))
    (tree' : Tree (constructed program.function tree inserted)) (f : Value → Value) : Prop :=
  ∀ v, ChainEnd (coalescedValues (constructed program.function tree inserted) tree') v (f v)

def lowerCode (f : Value → Value) (markers : List Name) (code : List (Name × Inst)) : List (Name × Inst) :=
  (code.flatMap (lowerEntry markers)).map fun entry => (entry.1,entry.2.mapCollections f)

def loweredCode (g : Value → Value) (b i : Nat) (n : Name) : Inst → List (Name × Inst)
  | .mutIndexWrite value object index =>
    [(.ssa b i 0,.backend .vectorWrite [g object] [index] (some value))]
  | .mutAssocWrite value object key => [(.ssa b i 0,.backend .mapWrite [g object] [key] (some value))]
  | .mutSeqInsert value collection index =>
    [(.ssa b i 0,.backend .vectorInsertElement [g collection] [index] (some value))]
  | .mutSeqInsertSeq inserted collection index =>
    [(.ssa b i 0,.backend .vectorInsert [g collection,g inserted] [index] none)]
  | .mutSeqRemove collection first last =>
    [(.ssa b i 0,.backend .vectorRemoveRange [g collection] [first,last] none)]
  | .mutSeqAppend collection appended => [(.ssa b i 0,.backend .size [g collection] [] none),
    (.ssa b i 1,.backend .vectorInsert [g collection,g appended] [.name (.ssa b i 0)] none)]
  | .mutSeqSwap fromCollection first last toCollection toFirst =>
    [(.ssa b i 0,.backend .vectorSwap [g fromCollection,g toCollection] [first,last,toFirst] none)]
  | .mutSeqSwapWithin collection first last toFirst =>
    [(.ssa b i 0,.backend .vectorSwap [g collection,g collection] [first,last,toFirst] none)]
  | .mutSeqSplit collection first last =>
    [(.ssa b i 0,.backend .vectorCopy [g collection] [first,last] none),
      (.ssa b i 1,.backend .vectorRemoveRange [g collection] [first,last] none)]
  | .mutAssocInsert collection key => [(.ssa b i 0,.backend .mapInsert [g collection] [key] none)]
  | .mutAssocRemove collection key => [(.ssa b i 0,.backend .mapRemove [g collection] [key] none)]
  | .indexRead object index => [(n,.backend .vectorRead [g object] [index] none)]
  | .assocRead object key => [(n,.backend .mapRead [g object] [key] none)]
  | .indexGet object index => [(n,.backend .vectorGet [g object] [index] none)]
  | .assocGet object key => [(n,.backend .mapGet [g object] [key] none)]
  | .assocHas object key => [(n,.backend .mapHas [object] [key] none)]
  | .size collection => [(n,.backend .size [g collection] [] none)]
  | .assocKeys collection => [(n,.backend .mapKeys [g collection] [] none)]
  | .seqAlloc length => [(n,.backend .vectorAllocate [] [length] none)]
  | .assocAlloc => [(n,.backend .mapAllocate [] [] none)]
  | .call callee collections scalars => [(n,.call callee (collections.map g) scalars)]
  | inst => [(n,inst)]

noncomputable def loweredBody (program : Program) (tree : Tree program.function)
    (inserted : List (Name × List Nat)) (f : Value → Value) (b : Nat) (body : List (Name × Inst)) :
    List (List (Name × Inst)) :=
  body.mapIdx fun i entry => loweredCode
    (fun v => f (rename (nearest program.function tree inserted (.before b i)) v)) b i entry.1 entry.2

section
variable {program : Program} {tree : Tree program.function} {inserted : List (Name × List Nat)}
  {tree' : Tree (constructed program.function tree inserted)} {f : Value → Value}

section
variable (ends : Ends program tree inserted tree' f)
include ends

theorem Ends.fixed {v : Value}
    (last : (coalescedValues (constructed program.function tree inserted) tree').lookup v = none) :
    f v = v :=
  (ends v).unique ⟨.refl,last⟩

theorem Ends.other {v : Value} (kept : ∀ b i k, v ≠ .name (.ssa b i k)) : f v = v := by
  refine ends.fixed (Option.eq_none_iff_forall_ne_some.mpr fun v' found => ?_)
  obtain ⟨b,i,_,k,_,_,_,_,rfl,_⟩ := coalesced_source found
  exact kept b i k rfl

theorem Ends.old {x : Name} (old : ¬Name.IsNew x) : f (.name x) = .name x := by
  refine ends.other fun b i k same => old ?_
  rw [Value.name.inj same]
  trivial

/-- A version that is coalesced becomes what its operand becomes. -/
theorem Ends.renewed {b i k : Nat} {inst : Inst} {operand : Value}
    (reachable : program.function.graph.Reachable b)
    (at_ : program.function.instruction? (.inst b i) = some inst) (renewed : (k,operand) ∈ inst.renewed) :
    f (.name (.ssa b i k)) = f (rename (nearest program.function tree inserted (.before b i)) operand) := by
  have step : Coalesced (coalescedValues (constructed program.function tree inserted) tree')
      (.name (.ssa b i k)) (rename (nearest program.function tree inserted (.before b i)) operand) :=
    coalesced_renewed reachable at_ renewed
  exact (ends _).unique ⟨.head step (ends _).1,(ends _).2⟩

/-- A version becomes one of the same variable that dominates every point that it does. -/
theorem Ends.version (renamable : Renamable program tree) (placed : Placed program inserted)
    (closed : Closed tree inserted) {x d : Name} {p : Point}
    (variable_ : x ∈ memoirNames program.function) (version : Version program.function inserted x d)
    (above : dominates tree d p = true) (reachable : program.function.graph.Reachable p.block) :
    ∃ e, f (.name d) = .name e ∧ Version program.function inserted x e ∧ dominates tree e p = true ∧
      f (.name e) = .name e := by
  obtain ⟨path,last⟩ := ends (.name d)
  generalize start : Value.name d = v at path last ⊢
  generalize f v = w at path last ⊢
  induction path using Relation.ReflTransGen.head_induction_on generalizing d with
  | refl => exact ⟨d,start.symm,version,above,ends.fixed (start ▸ last)⟩
  | head step _ ih =>
    obtain ⟨b,i,inst,k,operand,reachable',at_,renewed,rfl,rfl⟩ := coalesced_source step
    obtain rfl := Value.name.inj start
    obtain rfl : operand = .name x := by
      generalize is : Name.ssa b i k = d at version
      cases version with
      | first =>
        unfold firstVersion at is
        split at is
        · split_ifs at is with isSplit
          obtain ⟨rfl,rfl,rfl⟩ := Name.ssa.inj is
          simp only [Function.splitResult,at_,Option.map_some,Option.getD_some] at isSplit
          cases inst <;> simp [Inst.isSplit,Inst.renewed] at isSplit renewed
        · exact absurd (is ▸ trivial) (Program.not_isNew_variable variable_)
      | redefined at' redefines =>
        obtain ⟨rfl,rfl,rfl⟩ := Name.ssa.inj is
        obtain rfl := Option.some.inj (at_.symm.trans at')
        exact (renewed_redefines renewed redefines).symm
      | inserted _ => exact absurd is (by simp)
    have next := operand_nearest renamable placed closed reachable' at_
      (Inst.mutated_operands (renewed_mutated renewed).1)
    exact ih next.1 (dominates_trans tree rfl next.2.1 above reachable) rfl

theorem Ends.constant {v : Value} (noName : v.name? = none) : f v = v := by
  refine ends.other fun b i k same => ?_
  rw [same] at noName
  exact absurd noName (by simp [Value.name?])

theorem Ends.operand {b i : Nat} {inst : Inst} {operand : Value}
    (at_ : program.function.instruction? (.inst b i) = some inst) (used : operand ∈ inst.operands) :
    f operand = operand := by
  cases operand with
  | name x => exact ends.old (Program.not_isNew_variable (operand_variable at_ used))
  | constant _ => exact ends.constant rfl
  | null => exact ends.constant rfl

theorem Ends.written {b i : Nat} {inst : Inst} {element : Element}
    (at_ : program.function.instruction? (.inst b i) = some inst) (written : inst.element = some element) :
    element.mapCollection f = element := by
  cases element with
  | scalar _ => rfl
  | collection v =>
    refine congrArg Element.collection (ends.operand at_ ?_)
    simp [Inst.operands,written,Element.collection?]

omit ends in
theorem marker_new {m : Name} (marker : m ∈ endMarkers (constructed program.function tree inserted) tree') :
    Name.IsNew m := by
  rw [mem_endMarkers] at marker
  obtain ⟨b,i,_,_,_,_,rfl⟩ := marker
  trivial

omit ends in
theorem mem_operandNumbers {inst : Inst} {number : Nat} {s : Scalar}
    (member : (number,s) ∈ operandNumbers inst) : s ∈ inst.scalars := by
  cases inst <;> simp_all [operandNumbers,Inst.scalars] <;> tauto

omit ends in
/-- Scalars of the program are no end markers. -/
theorem contextualized_old {b i : Nat} {inst new : Inst}
    (at_ : program.function.instruction? (.inst b i) = some inst)
    (scalars : ∀ s ∈ new.scalars, s ∈ inst.scalars) :
    contextualized (endMarkers (constructed program.function tree inserted) tree') new = [] := by
  refine List.eq_nil_iff_forall_not_mem.mpr ?_
  rintro ⟨m,collection⟩ member
  obtain ⟨number,inNumbers,marker,_⟩ := mem_contextualized.mp member
  exact scalar_old at_ (scalars _ (mem_operandNumbers inNumbers)) (marker_new marker)

theorem Ends.code {b i : Nat} {inst : Inst} (reachable : program.function.graph.Reachable b)
    (at_ : program.function.instruction? (.inst b i) = some inst) :
    lowerCode f (endMarkers (constructed program.function tree inserted) tree')
        (translate (nearest program.function tree inserted (.before b i)) b i (.inst b i) inst) =
      loweredCode (fun v => f (rename (nearest program.function tree inserted (.before b i)) v)) b i
        (.inst b i) inst := by
  have kind := plain_source at_
  have old (new : Inst) (scalars : ∀ s ∈ new.scalars, s ∈ inst.scalars) :
      contextualized (endMarkers (constructed program.function tree inserted) tree') new = [] :=
    contextualized_old at_ scalars
  have element (element : Element) (written : inst.element = some element) :
      element.mapCollection f = element := ends.written at_ written
  have operand (operand : Value) (used : operand ∈ inst.operands) : f operand = operand :=
    ends.operand at_ used
  cases inst <;> simp only [Inst.isSsa,Inst.isBackend,Bool.true_eq_false,false_and,and_false] at kind
  case mutSeqAppend collection appended =>
    have marker : Name.ssa b i 0 ∈ endMarkers (constructed program.function tree inserted) tree' :=
      append_marker reachable at_
    simp [lowerCode,loweredCode,translate,lowerEntry,lowerInst,Inst.mapCollections,contextualized,
      operandNumbers,EndMarkers.contextualizeEnd,marker]
  all_goals
    simp_all [lowerCode,loweredCode,translate,lowerEntry,lowerInst,Inst.mapCollections,Inst.scalars,
      Inst.element,Inst.operands,Inst.read,Inst.mutated]

/-- The body of a block after both passes. -/
theorem Ends.body {b : Nat} {block : BasicBlock} (reachable : program.function.graph.Reachable b)
    (found : program.function.blocks[b]? = some block) :
    (lowerBlock (constructed program.function tree inserted) tree' f b
        (constructedBlock program.function tree inserted b block)).body =
      (loweredBody program tree inserted f b block.body).flatten := by
  have reachable' : (constructed program.function tree inserted).graph.Reachable b := by
    rwa [constructed_graph]
  simp only [lowerBlock,(tree'.preorder_reachable b).mpr reachable',if_true,constructedBlock_body reachable,
    List.flatMap_def,List.map_flatten,List.flatten_flatten,List.map_map]
  congr 1
  refine List.ext_getElem? fun i => ?_
  simp only [loweredBody,translatedBody,List.getElem?_map,List.getElem?_mapIdx,Option.map_map]
  rcases at_ : block.body[i]? with _ | ⟨n,inst⟩
  · rfl
  · obtain rfl := program.name_at found at_
    have code := ends.code reachable (Function.instruction?_eq found at_)
    simp only [lowerCode,List.flatMap_def,List.map_flatten,List.map_map] at code
    simp [code]

end

end
end Memoir.Construction.RoundTrip
