import Memoir.RenamingWalk
import Memoir.Placement
import Memoir.Verifier

/-! When construction gives a function in SSA form. -/
namespace Memoir

def Inst.unrenamed (inst : Inst) : List Value :=
  (match inst with
    | assocHas object _ => [object]
    | _ => []) ++ (inst.element.bind Element.collection?).toList

namespace Construction
open Dominance

section
variable (program : Program) (tree : Tree program.function)

def Settled (x : Name) (s : Nat) : Prop :=
  program.function.splitResult x = false ∧
  (∀ b i inst k, program.function.instruction? (.inst b i) = some inst →
    (.name x,k) ∈ inst.redefines → ¬ program.function.graph.Dominates b s) ∧
  ∀ b, Merged tree x b → ¬ program.function.graph.Dominates b s

structure Renamable : Prop where
  reachable : ∀ x ∈ memoirNames program.function, ∀ b ∈ definitionParents program.function x,
    program.function.graph.Reachable b
  operands : ∀ b block, program.function.graph.Reachable b →
    program.function.blocks[b]? = some block → ∀ n inst, (n,inst) ∈ block.body →
      Inst.NoConstant inst
  incoming : ∀ block ∈ program.function.blocks, ∀ n phi, (n,phi) ∈ block.phis → ∀ s k,
    program.function.graph.Reachable s → (s,.collection (.constant k)) ∉ phi.incoming
  unrenamed : ∀ block ∈ program.function.blocks, ∀ n inst, (n,inst) ∈ block.body → ∀ x,
    .name x ∈ inst.unrenamed → program.function.splitResult x = false
  unreachable : ∀ b block, ¬ program.function.graph.Reachable b →
    program.function.blocks[b]? = some block →
      (∀ n inst, (n,inst) ∈ block.body → ∀ x, .name x ∈ inst.operands →
        program.function.splitResult x = false) ∧
      ∀ x, .name x ∈ block.terminator.operands → program.function.splitResult x = false
  edges : ∀ block ∈ program.function.blocks, ∀ n phi, (n,phi) ∈ block.phis → ∀ s x,
    ¬ program.function.graph.Reachable s → (s,.collection (.name x)) ∈ phi.incoming →
      program.function.splitResult x = false
  merged : ∀ x, program.function.splitResult x = true → ∀ t, Merged tree x t →
    ∀ s ∈ program.function.predecessors t, program.function.graph.Reachable s
  double : ∀ s, program.function.graph.Reachable s → ∀ t,
    1 < (program.function.successors s).count t →
      (∀ block n phi x, program.function.blocks[t]? = some block → (n,phi) ∈ block.phis →
        (s,.collection (.name x)) ∈ phi.incoming → Settled program tree x s) ∧
      ∀ x ∈ memoirNames program.function, Merged tree x t → Settled program tree x s

end

section
variable {program : Program} {tree : Tree program.function} {inserted : List (Name × List Nat)}

theorem firstVersion_plain {x : Name} (plain : program.function.splitResult x = false) :
    firstVersion program.function x = x := by
  unfold firstVersion
  split
  · rw [if_neg (by simp [plain])]
  · rfl

theorem nearest_settled (closed : Closed tree inserted) {x : Name} {s : Nat}
    (settled : Settled program tree x s) :
    nearest program.function tree inserted (endPoint program.function s) x = x := by
  by_cases exists_ : ∃ d, Nearest program.function tree inserted x (endPoint program.function s) d
  · obtain ⟨version,above,_⟩ := nearest_spec exists_
    generalize nearest program.function tree inserted (endPoint program.function s) x = d
      at version above
    have block : ∀ b, d.block? = some b → program.function.graph.Dominates b s := by
      intro b at_
      rcases (dominates_iff tree at_ _).mp above with ⟨same,_⟩ | ⟨_,above⟩
      · exact same ▸ Graph.Dominates.refl _
      · exact above
    cases version with
    | first => exact firstVersion_plain settled.1
    | redefined at_ redefines => exact absurd (block _ rfl) (settled.2.1 _ _ _ _ at_ redefines)
    | inserted member => exact absurd (block _ rfl) (settled.2.2 _ (closed.merged _ _ member))
  · rw [nearest,dif_neg exists_]

theorem Renamable.walkable (renamable : Renamable program tree) (placed : Placed program inserted)
    (closed : Closed tree inserted) : Walkable program.function tree inserted where
  operands := renamable.operands
  incoming := by
    intro s reachable t edge phi member k entry
    rcases mem_collectionPhis.mp member with ⟨block,i,node,found,at_,rfl,_⟩ | ⟨x,rfl,_⟩
    · rw [initialIncoming_phi found at_] at entry
      exact renamable.incoming block (List.mem_of_getElem? found) _ _ (List.mem_of_getElem? at_) s k
        reachable (mem_collections.mp entry)
    · simp [initialIncoming] at entry
  double := by
    intro s reachable t twice phi member value entry
    obtain ⟨sources,merged⟩ := renamable.double s reachable t twice
    cases value with
    | constant k => rfl
    | null => rfl
    | name x =>
      refine congrArg Value.name (nearest_settled closed ?_)
      rcases mem_collectionPhis.mp member with ⟨block,i,node,found,at_,rfl,_⟩ | ⟨y,rfl,inserted_⟩
      · rw [initialIncoming_phi found at_] at entry
        exact sources block _ _ x found (List.mem_of_getElem? at_) (mem_collections.mp entry)
      · simp only [initialIncoming,List.mem_map,Prod.mk.injEq,Value.name.injEq] at entry
        obtain ⟨_,_,_,rfl⟩ := entry
        exact merged y (placed.names _ _ inserted_) (closed.merged _ _ inserted_)

variable (tree inserted) in
theorem constructed_block (b : Nat) :
    (constructed program.function tree inserted).blocks[b]? =
      (program.function.blocks[b]?).map (constructedBlock program.function tree inserted b) := by
  simp [constructed]

theorem constructed_member {b : Nat} {block : BasicBlock}
    (found : program.function.blocks[b]? = some block) :
    constructedBlock program.function tree inserted b block ∈
      (constructed program.function tree inserted).blocks := by
  refine List.mem_of_getElem? ((constructed_block tree inserted b).trans ?_)
  rw [found]
  rfl

theorem constructedBlock_successors (b : Nat) (block : BasicBlock) :
    (match (constructedBlock program.function tree inserted b block).terminator with
      | .switch _ targets => targets
      | .ret _ => []) =
    match block.terminator with
      | .switch _ targets => targets
      | .ret _ => [] := by
  have same : ∀ version terminator, (match translateTerminator version terminator with
      | .switch _ targets => targets
      | .ret _ => []) =
    match terminator with
      | .switch _ targets => targets
      | .ret _ => [] := by
    intro version terminator
    rcases terminator with (_ | ⟨s⟩ | v) | ⟨selector,targets⟩ <;> rfl
  unfold constructedBlock
  dsimp only
  split_ifs
  · exact same _ _
  · rfl

theorem Function.successors_eq (function : Function) (b : Nat) : function.successors b =
    ((function.blocks[b]?).map fun block => match block.terminator with
      | .switch _ targets => targets
      | .ret _ => []).getD [] := by
  unfold Function.successors
  rcases function.blocks[b]? with _ | ⟨phis,body,value | ⟨selector,targets⟩⟩ <;> rfl

theorem constructed_graph :
    (constructed program.function tree inserted).graph = program.function.graph := by
  apply congrArg (Dominance.Graph.mk 0)
  funext b
  rw [Function.successors_eq,Function.successors_eq,constructed_block]
  cases program.function.blocks[b]? with
  | none => rfl
  | some block => exact constructedBlock_successors b block

theorem constructedBlock_phis (b : Nat) (block : BasicBlock) :
    (constructedBlock program.function tree inserted b block).phis.map Prod.fst =
      block.phis.map Prod.fst ++ (insertedAt inserted b).map (.insertedPhi b) := by
  unfold constructedBlock
  dsimp only
  split_ifs <;> simp [Function.comp_def]

theorem constructedBlock_body {b : Nat} (reachable : program.function.graph.Reachable b)
    (block : BasicBlock) : (constructedBlock program.function tree inserted b block).body =
      (translatedBody program.function tree inserted b block.body).flatten := by
  unfold constructedBlock
  dsimp only
  rw [if_pos ((tree.preorder_reachable b).mpr reachable)]
  rfl

theorem constructedBlock_unreachable {b : Nat}
    (unreachable : ¬ program.function.graph.Reachable b) (block : BasicBlock) :
    (constructedBlock program.function tree inserted b block).body = block.body ∧
      (constructedBlock program.function tree inserted b block).terminator = block.terminator := by
  unfold constructedBlock
  dsimp only
  rw [if_neg fun member => unreachable ((tree.preorder_reachable b).mp member)]
  exact ⟨rfl,rfl⟩

theorem translate_result {version : Name → Name} {b i : Nat} {n : Name} {inst : Inst}
    (isMut : inst.isMut = false) : n ∈ (translate version b i n inst).map Prod.fst := by
  cases inst <;> simp_all [translate,Inst.isMut]

theorem translate_redefines {version : Name → Name} {b i k : Nat} {n : Name} {inst : Inst}
    {operand : Value} (redefines : (operand,k) ∈ inst.redefines) :
    .ssa b i k ∈ (translate version b i n inst).map Prod.fst := by
  cases inst <;> simp_all [translate,Inst.redefines,Inst.isMut]
  split_ifs at redefines <;> simp_all
  rcases redefines with ⟨_,rfl⟩ | ⟨_,rfl⟩ <;> simp

theorem translate_split {version : Name → Name} {b i : Nat} {n : Name} {inst : Inst}
    (isSplit : inst.isSplit = true) : .ssa b i 0 ∈ (translate version b i n inst).map Prod.fst := by
  cases inst <;> simp_all [translate,Inst.isSplit]

theorem translatedBody_getElem {b i : Nat} {body : List (Name × Inst)} {n : Name} {inst : Inst}
    (entry : body[i]? = some (n,inst)) :
    (translatedBody program.function tree inserted b body)[i]? =
      some (translate (nearest program.function tree inserted (.before b i)) b i n inst) := by
  simp [translatedBody,entry]

/-- Where an entry of the code stands, everything of the earlier groups is before it. -/
theorem flatten_position {α : Type} {groups : List (List α)} {k : Nat} {entry : α}
    (at_ : groups.flatten[k]? = some entry) : ∃ j group, groups[j]? = some group ∧ entry ∈ group ∧
      (groups.take j).flatten ⊆ groups.flatten.take k := by
  induction groups generalizing k with
  | nil => simp at at_
  | cons group groups ih =>
    rw [List.flatten_cons] at at_ ⊢
    by_cases inside : k < group.length
    · rw [List.getElem?_append_left inside] at at_
      exact ⟨0,group,rfl,List.mem_of_getElem? at_,by simp⟩
    · rw [List.getElem?_append_right (by omega)] at at_
      obtain ⟨j,group',found,member,earlier⟩ := ih at_
      refine ⟨j + 1,group',by simpa using found,member,?_⟩
      have whole : (group ++ groups.flatten).take k =
          group ++ groups.flatten.take (k - group.length) := by
        rw [List.take_append,List.take_of_length_le (Nat.le_of_not_lt inside)]
      rw [List.take_succ_cons,List.flatten_cons,whole]
      exact List.append_subset.mpr ⟨List.subset_append_left _ _,
        List.Subset.trans earlier (List.subset_append_right _ _)⟩

/-- A version stands in the code of the instruction that makes it. -/
theorem version_place {x d : Name} (variable_ : x ∈ memoirNames program.function)
    (version : Version program.function inserted x d) {s : Nat} {block : BasicBlock}
    (at_ : d.block? = some s) (found : program.function.blocks[s]? = some block) :
    (d ∈ (constructedBlock program.function tree inserted s block).phis.map Prod.fst) ∨
    ∃ i group, (translatedBody program.function tree inserted s block.body)[i]? = some group ∧
      d ∈ group.map Prod.fst ∧ d.position = i + 1 := by
  have instruction : ∀ {i n inst}, block.body[i]? = some (n,inst) →
      (translatedBody program.function tree inserted s block.body)[i]? =
        some (translate (nearest program.function tree inserted (.before s i)) s i n inst) :=
    translatedBody_getElem
  rw [constructedBlock_phis,List.mem_append]
  cases version with
  | first =>
    rw [firstVersion_block] at at_
    obtain ⟨isCollection,defined⟩ := mem_memoirNames.mp variable_
    rcases defined with ⟨i,_,rfl⟩ | ⟨block',inBlocks,named⟩
    · simp [Name.block?] at at_
    · obtain ⟨b',bound,rfl⟩ := List.mem_iff_getElem.mp inBlocks
      have found' := List.getElem?_eq_getElem bound
      obtain rfl := Option.some.inj ((program.names_block found' named).symm.trans at_)
      obtain rfl := Option.some.inj (found'.symm.trans found)
      rcases List.mem_append.mp named with named | named
      · obtain ⟨i,rfl⟩ := program.mem_phis found named
        exact .inl (.inl named)
      · obtain ⟨i,bound',rfl⟩ := program.mem_body found named
        have entry : program.function.blocks[b'].body[i]? =
            some (.inst b' i,program.function.blocks[b'].body[i].2) := by
          rw [List.getElem?_eq_getElem bound']
          exact congrArg some (Prod.ext (program.name_at found (List.getElem?_eq_getElem bound')) rfl)
        refine .inr ⟨i,_,instruction entry,?_⟩
        have at' := Function.instruction?_eq found entry
        cases isSplit : Inst.isSplit program.function.blocks[b'].body[i].2 with
        | true =>
          have first : firstVersion program.function (.inst b' i) = .ssa b' i 0 := by
            simp [firstVersion,Function.splitResult,at',isSplit]
          rw [first]
          exact ⟨translate_split isSplit,rfl⟩
        | false =>
          have first : firstVersion program.function (.inst b' i) = .inst b' i :=
            firstVersion_inst at' isSplit
          rw [first]
          refine ⟨translate_result ?_,rfl⟩
          by_contra isMut
          have typed := program.results _ inBlocks _ _ (List.mem_of_getElem? entry)
            (eq_true_of_ne_false isMut)
          rw [isCollection,isSplit] at typed
          exact absurd typed (by simp)
  | @redefined b i k inst at' redefines =>
    obtain rfl := Option.some.inj at_
    obtain ⟨block',n,found',entry⟩ := Function.instruction?_eq_some at'
    obtain rfl := Option.some.inj (found'.symm.trans found)
    exact .inr ⟨i,_,instruction entry,translate_redefines redefines,rfl⟩
  | inserted member =>
    obtain rfl := Option.some.inj at_
    exact .inl (.inr (List.mem_map_of_mem member))

theorem version_available {x d : Name} (variable_ : x ∈ memoirNames program.function)
    (version : Version program.function inserted x d) {b j k : Nat} {block : BasicBlock}
    (found : program.function.blocks[b]? = some block)
    (reachable : program.function.graph.Reachable b)
    (past : ((translatedBody program.function tree inserted b block.body).take j).flatten ⊆
      (translatedBody program.function tree inserted b block.body).flatten.take k)
    (above : dominates tree d (.before b j) = true) :
    (constructed program.function tree inserted).Available d b k := by
  cases at_ : d.block? with
  | none =>
    refine .inl ?_
    cases version with
    | first =>
      rw [firstVersion_block] at at_
      rcases (mem_memoirNames.mp variable_).2 with ⟨i,bound,rfl⟩ | ⟨block',inBlocks,named⟩
      · exact ⟨i,bound,rfl⟩
      · obtain ⟨b',bound,rfl⟩ := List.mem_iff_getElem.mp inBlocks
        have at' := program.names_block (List.getElem?_eq_getElem bound) named
        exact absurd (at_.symm.trans at') (by simp)
    | redefined _ _ => exact absurd at_ (by simp [Name.block?])
    | inserted _ => exact absurd at_ (by simp [Name.block?])
  | some s =>
    rcases (dominates_iff tree at_ _).mp above with ⟨rfl,lower⟩ | ⟨apart,above⟩
    · refine .inr (.inl ⟨_,by rw [constructed_block]; exact congrArg _ found,?_⟩)
      rw [List.mem_append]
      rcases version_place variable_ version at_ found with phi | ⟨i,group,at',member,place⟩
      · exact .inl phi
      · right
        rw [constructedBlock_body reachable,List.map_take]
        obtain ⟨entry,inGroup,rfl⟩ := List.mem_map.mp member
        rw [← List.map_take]
        refine List.mem_map_of_mem (past (List.mem_flatten.mpr ⟨group,?_,inGroup⟩))
        have short : i < j := by
          simp only [place,Point.position] at lower
          omega
        obtain ⟨bound,rfl⟩ := List.getElem?_eq_some_iff.mp at'
        rw [List.mem_take_iff_getElem]
        exact ⟨i,by omega,rfl⟩
    · have reachable' := above.reachable reachable
      have found' := List.getElem?_eq_getElem (reachable_bound reachable')
      refine .inr (.inr ⟨s,_,by rw [constructed_block]; exact congrArg _ found',?_,?_⟩)
      · rw [BasicBlock.names,List.mem_append]
        refine (version_place variable_ version at_ found').imp_right ?_
        rintro ⟨i,group,at',member,_⟩
        rw [constructedBlock_body reachable',List.map_flatten]
        exact List.mem_flatten.mpr ⟨_,List.mem_map_of_mem (List.mem_of_getElem? at'),member⟩
      · rw [constructed_graph]
        exact ⟨above,apart⟩

variable {version : Name → Name} {b i : Nat} {n : Name} {inst : Inst} {entry : Name × Inst}
  (member : entry ∈ translate version b i n inst)
include member

theorem translate_operands (kind : inst.isSsa = false ∧ inst.isBackend = false) {operand : Value}
    (used : operand ∈ entry.2.operands) :
    (∃ original ∈ inst.operands, operand = rename version original) ∨ operand ∈ inst.unrenamed := by
  cases inst <;>
    simp only [translate,List.mem_cons,List.not_mem_nil,or_false,Inst.isSsa,Inst.isBackend,
      Bool.true_eq_false,false_and,and_false] at member kind <;>
    (try rcases member with rfl | rfl | rfl) <;>
    simp_all [Inst.operands,Inst.mutated,Inst.read,Inst.element,Inst.unrenamed]
  case call => exact used.imp fun _ renamed => ⟨renamed.1,renamed.2.symm⟩
  all_goals tauto

theorem translate_scalars (kind : inst.isSsa = false ∧ inst.isBackend = false) {s : Scalar}
    (used : s ∈ entry.2.scalars) : s ∈ inst.scalars ∨
      (s = .name (.ssa b i 0) ∧ .ssa b i 0 ∈ (translate version b i n inst).map Prod.fst) := by
  cases inst <;>
    simp only [translate,List.mem_cons,List.not_mem_nil,or_false,Inst.isSsa,Inst.isBackend,
      Bool.true_eq_false,false_and,and_false] at member kind <;>
    (try rcases member with rfl | rfl | rfl) <;> simp_all [Inst.scalars,translate]

theorem translate_element {element : Element} (written : entry.2.element = some element) :
    inst.element = some element := by
  cases inst <;> simp only [translate,List.mem_cons,List.not_mem_nil,or_false] at member <;>
    (try rcases member with rfl | rfl | rfl) <;> simp_all [Inst.element]

theorem translate_extract (kind : inst.isSsa = false ∧ inst.isBackend = false) {pair : Name}
    {second : Bool} (extract : entry.2 = .extractValue pair second) :
    pair = .ssa b i 0 ∧ .ssa b i 0 ∈ (translate version b i n inst).map Prod.fst := by
  cases inst <;>
    simp only [translate,List.mem_cons,List.not_mem_nil,or_false,Inst.isSsa,Inst.isBackend,
      Bool.true_eq_false,false_and,and_false] at member kind <;>
    (try rcases member with rfl | rfl | rfl) <;> simp_all [translate]

end

section
variable {program : Program} {tree : Tree program.function} {inserted : List (Name × List Nat)}

theorem Function.Available.defined {function : Function} {n : Name} {b k : Nat}
    (available : function.Available n b k) : function.Defined n := by
  rcases available with argument | ⟨block,found,member⟩ | ⟨_,block,found,member,_⟩
  · exact .inl argument
  · refine .inr ⟨block,List.mem_of_getElem? found,?_⟩
    rw [BasicBlock.names,List.mem_append]
    refine (List.mem_append.mp member).imp_right fun member => ?_
    rw [List.map_take] at member
    exact List.mem_of_mem_take member
  · exact .inr ⟨block,List.mem_of_getElem? found,member⟩

/-- Results of what is not a mutable operation stay. -/
theorem kept_defined {m : Name} (defined : program.function.Defined m)
    (kept : ∀ inst, program.function.instruction? m = some inst → inst.isMut = false) :
    (constructed program.function tree inserted).Defined m := by
  rcases defined with argument | ⟨block,inBlocks,named⟩
  · exact .inl argument
  · obtain ⟨b,bound,rfl⟩ := List.mem_iff_getElem.mp inBlocks
    have found := List.getElem?_eq_getElem bound
    refine .inr ⟨_,constructed_member found,?_⟩
    rw [BasicBlock.names,constructedBlock_phis,List.append_assoc,List.mem_append]
    refine (List.mem_append.mp named).imp_right fun member => List.mem_append_right _ ?_
    by_cases reachable : program.function.graph.Reachable b
    · obtain ⟨i,bound',rfl⟩ := program.mem_body found member
      have at_ := List.getElem?_eq_getElem bound'
      have entry : program.function.blocks[b].body[i]? =
          some (.inst b i,program.function.blocks[b].body[i].2) := by
        rw [at_]
        exact congrArg some (Prod.ext (program.name_at found at_) rfl)
      rw [constructedBlock_body reachable,List.map_flatten]
      refine List.mem_flatten.mpr ⟨_,List.mem_map_of_mem
        (List.mem_of_getElem? (translatedBody_getElem entry)),translate_result ?_⟩
      exact kept _ (Function.instruction?_eq found entry)
    · rw [(constructedBlock_unreachable reachable _).1]
      exact member

theorem plain_kept {x : Name} (variable_ : x ∈ memoirNames program.function)
    (plain : program.function.splitResult x = false) :
    ∀ inst, program.function.instruction? x = some inst → inst.isMut = false := by
  intro inst at_
  by_contra isMut
  cases x with
  | inst b i =>
    obtain ⟨block,n,found,entry⟩ := Function.instruction?_eq_some at_
    obtain rfl := program.name_at found entry
    have typed := program.results block (List.mem_of_getElem? found) _ _
      (List.mem_of_getElem? entry) (eq_true_of_ne_false isMut)
    rw [(mem_memoirNames.mp variable_).1] at typed
    simp [Function.splitResult,at_,← typed] at plain
  | _ => simp [Function.instruction?] at at_

theorem plain_version {x : Name} (plain : program.function.splitResult x = false) :
    Version program.function inserted x x := by
  have version : Version program.function inserted x (firstVersion program.function x) := .first
  rwa [firstVersion_plain plain] at version

theorem Inst.unrenamed_operands {inst : Inst} {operand : Value}
    (member : operand ∈ inst.unrenamed) : operand ∈ inst.operands := by
  cases inst <;>
    simp_all [Inst.unrenamed,Inst.operands,Inst.mutated,Inst.read,Inst.element]

/-- The PHI nodes of the new function: collections, and the scalars as they were. -/
theorem constructed_phi {t : Nat} {block : BasicBlock}
    (found : program.function.blocks[t]? = some block) {n : Name} {phi : Phi}
    (member : (n,phi) ∈ (constructedBlock program.function tree inserted t block).phis) :
    (n ∈ collectionPhis program.function inserted t ∧
      phi.incoming = (renamedIncoming program.function tree inserted
        (initialIncoming program.function n)).map fun entry => (entry.1,.collection entry.2)) ∨
    (program.function.valueIsCollectionType n = false ∧ (n,phi) ∈ block.phis) := by
  have member : (n,phi) ∈ block.phis.map (fun entry =>
      (entry.1,constructedPhi program.function tree inserted entry.1 entry.2)) ++
    (insertedAt inserted t).map fun named => (Name.insertedPhi t named,
      (⟨(renamedIncoming program.function tree inserted
        (initialIncoming program.function (.insertedPhi t named))).map
          fun entry => (entry.1,.collection entry.2)⟩ : Phi)) := by
    unfold constructedBlock at member
    dsimp only at member
    split_ifs at member <;> exact member
  rcases List.mem_append.mp member with member | member
  · obtain ⟨⟨m,old⟩,inPhis,same⟩ := List.mem_map.mp member
    obtain ⟨rfl,rfl⟩ := Prod.mk.inj same
    obtain ⟨i,bound,at_⟩ := List.mem_iff_getElem.mp inPhis
    have at' := (List.getElem?_eq_getElem bound).trans (congrArg some at_)
    obtain rfl := program.phi_at found at'
    simp only [constructedPhi]
    split_ifs with isCollection
    · refine .inl ⟨mem_collectionPhis.mpr (.inl ⟨block,i,old,found,at',rfl,isCollection⟩),?_⟩
      rw [initialIncoming_phi found at']
    · exact .inr ⟨eq_false_of_ne_true isCollection,inPhis⟩
  · obtain ⟨x,isInserted,same⟩ := List.mem_map.mp member
    obtain ⟨rfl,rfl⟩ := Prod.mk.inj same
    exact .inl ⟨mem_collectionPhis.mpr (.inr ⟨x,rfl,isInserted⟩),rfl⟩

theorem constructed_incoming {n : Name} {phi : Phi}
    (incoming : phi.incoming = (renamedIncoming program.function tree inserted
      (initialIncoming program.function n)).map fun entry => (entry.1,.collection entry.2))
    {entry : Nat × Element} (member : entry ∈ phi.incoming) :
    ∃ value, (entry.1,value) ∈ initialIncoming program.function n ∧
      entry.2 = .collection (if entry.1 ∈ tree.preorder then
        rename (nearest program.function tree inserted (endPoint program.function entry.1)) value
      else value) := by
  rw [incoming,renamedIncoming,List.map_map] at member
  obtain ⟨⟨source,value⟩,inInitial,same⟩ := List.mem_map.mp member
  subst same
  refine ⟨value,?_⟩
  by_cases reached : source ∈ tree.preorder <;> simp [reached,renamedEntry,inInitial]

variable (placed : Placed program inserted) (walkable : Walkable program.function tree inserted)
include placed walkable

/-- A renamed variable is available where the new instruction stands. -/
theorem renamed_available {b j k : Nat} {block : BasicBlock}
    (found : program.function.blocks[b]? = some block)
    (reachable : program.function.graph.Reachable b) (bound : j ≤ block.body.length)
    (past : ((translatedBody program.function tree inserted b block.body).take j).flatten ⊆
      (translatedBody program.function tree inserted b block.body).flatten.take k)
    {x : Name} (ready : Ready program tree x (.before b j)) :
    (constructed program.function tree inserted).Available
      (nearest program.function tree inserted (.before b j) x) b k := by
  obtain ⟨version,above,_⟩ := nearest_of_ready placed walkable reachable found bound ready
  exact version_available ready.1 version found reachable past above

theorem renamed_usable {b j k : Nat} {block : BasicBlock}
    (found : program.function.blocks[b]? = some block)
    (reachable : program.function.graph.Reachable b) (bound : j ≤ block.body.length)
    (past : ((translatedBody program.function tree inserted b block.body).take j).flatten ⊆
      (translatedBody program.function tree inserted b block.body).flatten.take k)
    {operand : Value} (present : operand ≠ .null)
    (ready : ∀ x, operand = .name x → Ready program tree x (.before b j)) :
    (constructed program.function tree inserted).Usable b k
      (rename (nearest program.function tree inserted (.before b j)) operand) := by
  cases operand with
  | null => exact absurd rfl present
  | constant id => exact ⟨by simp [rename],fun n same => absurd same (by simp [rename])⟩
  | name x =>
    refine ⟨by simp [rename],fun n same _ => ?_⟩
    obtain rfl := Value.name.inj same
    exact renamed_available placed walkable found reachable bound past (ready x rfl)

end

section
variable {program : Program} {tree : Tree program.function} {inserted : List (Name × List Nat)}
  (renamable : Renamable program tree) (placed : Placed program inserted)
  (closed : Closed tree inserted)
include renamable placed closed

/-- The collection operands of the new code. -/
theorem constructed_usable {b k : Nat} {block : BasicBlock}
    (found : program.function.blocks[b]? = some block) {n : Name} {inst : Inst}
    (at_ : (constructedBlock program.function tree inserted b block).body[k]? = some (n,inst))
    {operand : Value} (used : operand ∈ inst.operands) :
    (constructed program.function tree inserted).Usable b k operand ∧
      ∀ m, operand = .name m → (constructed program.function tree inserted).Defined m := by
  have walkable := renamable.walkable placed closed
  have inBlocks := List.mem_of_getElem? found
  by_cases reachable : program.function.graph.Reachable b
  · have fromUsable : (constructed program.function tree inserted).Usable b k operand →
        (constructed program.function tree inserted).Usable b k operand ∧
          ∀ m, operand = .name m → (constructed program.function tree inserted).Defined m :=
      fun usable => ⟨usable,fun m same =>
        Function.Available.defined (usable.2 m same (by rwa [constructed_graph]))⟩
    apply fromUsable
    rw [constructedBlock_body reachable] at at_
    obtain ⟨j,group,inGroups,inGroup,past⟩ := flatten_position at_
    obtain ⟨bound,isGroup⟩ := List.getElem?_eq_some_iff.mp inGroups
    have bound' : j < block.body.length := by simpa [translatedBody] using bound
    have entry : block.body[j]? = some (.inst b j,block.body[j].2) := by
      rw [List.getElem?_eq_getElem bound']
      exact congrArg some (Prod.ext (program.name_at found (List.getElem?_eq_getElem bound')) rfl)
    rw [translatedBody_getElem entry,Option.some.injEq] at inGroups
    have at' := Function.instruction?_eq found entry
    have inBody := List.mem_of_getElem? entry
    have kind := program.source block inBlocks _ _ inBody
    rcases translate_operands (inGroups ▸ inGroup) kind used with ⟨original,inOld,rfl⟩ | kept
    · refine renamed_usable placed walkable found reachable (Nat.le_of_lt bound') past
        (program.ssa.operands b block found j _ _ entry _ inOld).1 ?_
      rintro x rfl
      exact ready_operand at' inOld reachable
    · have inOld := Inst.unrenamed_operands kept
      refine ⟨(program.ssa.operands b block found j _ _ entry _ inOld).1,?_⟩
      rintro x rfl _
      have plain := renamable.unrenamed block inBlocks _ _ inBody x kept
      have ready : Ready program tree x (.before b j) := ready_operand at' inOld reachable
      refine version_available ready.1 (plain_version plain) found reachable past ?_
      rw [← firstVersion_plain plain]
      exact ready.2
  · rw [(constructedBlock_unreachable reachable _).1] at at_
    have at' := Function.instruction?_eq found at_
    refine ⟨⟨(program.ssa.operands b block found k _ _ at_ _ used).1,fun m _ reachable' => ?_⟩,?_⟩
    · rw [constructed_graph] at reachable'
      exact absurd reachable' reachable
    · rintro m rfl
      have plain := (renamable.unreachable b block reachable found).1 _ _
        (List.mem_of_getElem? at_) m used
      have variable_ := operand_variable at' used
      exact kept_defined (mem_memoirNames.mp variable_).2 (plain_kept variable_ plain)

theorem constructed_terminator {b : Nat} {block : BasicBlock}
    (found : program.function.blocks[b]? = some block) {operand : Value}
    (used : operand ∈
      (constructedBlock program.function tree inserted b block).terminator.operands) :
    (constructed program.function tree inserted).Usable b
        (constructedBlock program.function tree inserted b block).body.length operand ∧
      ∀ m, operand = .name m → (constructed program.function tree inserted).Defined m := by
  have walkable := renamable.walkable placed closed
  have variable_ : ∀ x, .name x ∈ block.terminator.operands →
      x ∈ memoirNames program.function :=
    fun x member => terminator_variable (List.mem_of_getElem? found) member
  by_cases reachable : program.function.graph.Reachable b
  · have fromUsable : ∀ k, (constructed program.function tree inserted).Usable b k operand →
        (constructed program.function tree inserted).Usable b k operand ∧
          ∀ m, operand = .name m → (constructed program.function tree inserted).Defined m :=
      fun k usable => ⟨usable,fun m same =>
        Function.Available.defined (usable.2 m same (by rwa [constructed_graph]))⟩
    apply fromUsable
    rw [constructedBlock_body reachable]
    have terminator : (constructedBlock program.function tree inserted b block).terminator =
        translateTerminator (nearest program.function tree inserted (.before b block.body.length))
          block.terminator := by
      unfold constructedBlock
      dsimp only
      rw [if_pos ((tree.preorder_reachable b).mpr reachable)]
      rfl
    obtain ⟨original,inOld,rfl⟩ : ∃ original ∈ block.terminator.operands, operand =
        rename (nearest program.function tree inserted (.before b block.body.length)) original := by
      rw [terminator] at used
      generalize block.terminator = old at used
      rcases old with (_ | ⟨s⟩ | v) | ⟨selector,targets⟩ <;>
        simp_all [Terminator.operands,translateTerminator,Element.collection?]
    have usable := program.ssa.terminator b block found _ inOld
    refine renamed_usable placed walkable found reachable (Nat.le_refl _) ?_ usable.1 ?_
    · rw [List.take_length]
      exact fun entry member => List.mem_flatten.mpr (by
        obtain ⟨group,inGroups,inGroup⟩ := List.mem_flatten.mp member
        exact ⟨group,List.mem_of_mem_take inGroups,inGroup⟩)
    · rintro x rfl
      exact ready_of_dominates (variable_ x inOld)
        (program.available_dominates tree (usable.2 x rfl reachable))
  · rw [(constructedBlock_unreachable reachable _).2] at used
    refine ⟨⟨(program.ssa.terminator b block found _ used).1,fun m _ reachable' => ?_⟩,?_⟩
    · rw [constructed_graph] at reachable'
      exact absurd reachable' reachable
    · rintro m rfl
      have plain := (renamable.unreachable b block reachable found).2 m used
      exact kept_defined (mem_memoirNames.mp (variable_ m used)).2 (plain_kept (variable_ m used) plain)

/-- The collection entries of the new PHI nodes. -/
theorem constructed_entry {t : Nat} {n : Name}
    (isPhi : n ∈ collectionPhis program.function inserted t) {s : Nat} {value : Value}
    (entry : (s,value) ∈ initialIncoming program.function n) {pred : BasicBlock}
    (found : program.function.blocks[s]? = some pred) {renamed : Value}
    (same : renamed = if s ∈ tree.preorder then
      rename (nearest program.function tree inserted (endPoint program.function s)) value
        else value) :
    (constructed program.function tree inserted).Usable s
        (constructedBlock program.function tree inserted s pred).body.length renamed ∧
      ∀ m, renamed = .name m → (constructed program.function tree inserted).Defined m := by
  have walkable := renamable.walkable placed closed
  have edge : t ∈ program.function.successors s := mem_predecessors.mp
    ((initialIncoming_edges isPhi).mem_iff.mp (List.mem_map_of_mem entry))
  obtain ⟨bound,_⟩ := List.getElem?_eq_some_iff.mp found
  have present : value ≠ .null := by
    rintro rfl
    exact incoming_not_null isPhi bound entry
  by_cases reachable : program.function.graph.Reachable s
  · have fromUsable : ∀ k, (constructed program.function tree inserted).Usable s k renamed →
        (constructed program.function tree inserted).Usable s k renamed ∧
          ∀ m, renamed = .name m → (constructed program.function tree inserted).Defined m :=
      fun k usable => ⟨usable,fun m same =>
        Function.Available.defined (usable.2 m same (by rwa [constructed_graph]))⟩
    apply fromUsable
    have end_ : endPoint program.function s = .before s pred.body.length := by
      simp [endPoint,found]
    rw [same,if_pos ((tree.preorder_reachable s).mpr reachable),end_,constructedBlock_body reachable]
    refine renamed_usable placed walkable found reachable (Nat.le_refl _) ?_ present ?_
    · rw [List.take_length]
      exact fun entry member => List.mem_flatten.mpr (by
        obtain ⟨group,inGroups,inGroup⟩ := List.mem_flatten.mp member
        exact ⟨group,List.mem_of_mem_take inGroups,inGroup⟩)
    · rintro x rfl
      have ready : Ready program tree x (endPoint program.function s) :=
        ready_incoming placed isPhi edge reachable entry
      rwa [end_] at ready
  · rw [if_neg fun member => reachable ((tree.preorder_reachable s).mp member)] at same
    subst same
    refine ⟨⟨present,fun m _ reachable' => ?_⟩,?_⟩
    · rw [constructed_graph] at reachable'
      exact absurd reachable' reachable
    · rintro x rfl
      rcases mem_collectionPhis.mp isPhi with ⟨block,i,node,found',at_,rfl,_⟩ | ⟨y,rfl,inserted_⟩
      · rw [initialIncoming_phi found' at_] at entry
        have inBlocks := List.mem_of_getElem? found'
        have inPhis := List.mem_of_getElem? at_
        have incoming := mem_collections.mp entry
        have variable_ : x ∈ memoirNames program.function := mem_memoirNames.mpr
          ⟨(program.collections block inBlocks).2.2 _ _ inPhis s x incoming,
            (program.ssa.defined block inBlocks).2.2 _ _ inPhis _ incoming x rfl⟩
        exact kept_defined (mem_memoirNames.mp variable_).2 (plain_kept variable_
          (renamable.edges block inBlocks _ _ inPhis s x reachable incoming))
      · simp only [initialIncoming,List.mem_map,Prod.mk.injEq,Value.name.injEq] at entry
        obtain ⟨_,_,_,rfl⟩ := entry
        have variable_ := placed.names _ _ inserted_
        refine kept_defined (mem_memoirNames.mp variable_).2 (plain_kept variable_ ?_)
        by_contra isSplit
        exact reachable (renamable.merged y (eq_true_of_ne_false isSplit) t
          (closed.merged _ _ inserted_) s (mem_predecessors.mpr edge))

theorem instruction_defined {b k : Nat} {block : BasicBlock}
    (found : program.function.blocks[b]? = some block) {n : Name} {inst : Inst}
    (at_ : (constructedBlock program.function tree inserted b block).body[k]? = some (n,inst))
    {m : Name} (named : m ∈ inst.names) :
    (constructed program.function tree inserted).Defined m := by
  have inBlocks := List.mem_of_getElem? found
  have scalar : ∀ n old, (n,old) ∈ block.body →
      Scalar.name m ∈ old.scalars ∨ old.element = some (.scalar (.name m)) →
      (constructed program.function tree inserted).Defined m := by
    intro n old inBody used
    refine kept_defined ((program.ssa.defined block inBlocks).1 n old inBody m ?_) ?_
    · simp only [Inst.names,List.mem_append,List.mem_filterMap]
      rcases used with used | used
      · exact .inr ⟨_,used,rfl⟩
      · exact .inl (.inr ⟨_,Option.mem_toList.mpr used,rfl⟩)
    · rcases used with used | used
      · exact (((program.scalars block inBlocks).1 n old inBody).1 m used).2
      · exact (((program.scalars block inBlocks).1 n old inBody).2 m used).2
  have operand : .name m ∈ inst.operands →
      (constructed program.function tree inserted).Defined m := fun used =>
    (constructed_usable renamable placed closed found at_ used).2 m rfl
  by_cases reachable : program.function.graph.Reachable b
  · rw [constructedBlock_body reachable] at at_
    obtain ⟨j,group,inGroups,inGroup,_⟩ := flatten_position at_
    obtain ⟨bound,_⟩ := List.getElem?_eq_some_iff.mp inGroups
    have bound' : j < block.body.length := by simpa [translatedBody] using bound
    have entry : block.body[j]? = some (block.body[j].1,block.body[j].2) :=
      List.getElem?_eq_getElem bound'
    rw [translatedBody_getElem entry,Option.some.injEq] at inGroups
    subst inGroups
    have inBody := List.mem_of_getElem? entry
    have kind := program.source block inBlocks _ _ inBody
    have first : .ssa b j 0 ∈ (translate (nearest program.function tree inserted (.before b j)) b j
        block.body[j].1 block.body[j].2).map Prod.fst →
        (constructed program.function tree inserted).Defined (.ssa b j 0) := by
      refine fun member => .inr ⟨_,constructed_member found,?_⟩
      rw [BasicBlock.names,List.mem_append,constructedBlock_body reachable,List.map_flatten]
      exact .inr (List.mem_flatten.mpr ⟨_,List.mem_map_of_mem
        (List.mem_of_getElem? (translatedBody_getElem entry)),member⟩)
    rcases Inst.mem_names named with ⟨second,rfl⟩ | used | used | used
    · obtain ⟨rfl,member⟩ := translate_extract inGroup kind rfl
      exact first member
    · exact operand used
    · rcases translate_scalars inGroup kind used with used | ⟨same,member⟩
      · exact scalar _ _ inBody (.inl used)
      · obtain rfl := Scalar.name.inj same
        exact first member
    · exact scalar _ _ inBody (.inr (translate_element inGroup used))
  · rw [(constructedBlock_unreachable reachable _).1] at at_
    have inBody := List.mem_of_getElem? at_
    rcases Inst.mem_names named with ⟨second,rfl⟩ | used | used
    · exact absurd (program.source block inBlocks _ _ inBody).1 (by simp [Inst.isSsa])
    · exact operand used
    · exact scalar _ _ inBody used

theorem terminator_defined {b : Nat} {block : BasicBlock}
    (found : program.function.blocks[b]? = some block) {m : Name}
    (named : m ∈ (constructedBlock program.function tree inserted b block).terminator.names) :
    (constructed program.function tree inserted).Defined m := by
  have inBlocks := List.mem_of_getElem? found
  have operand : .name m ∈
      (constructedBlock program.function tree inserted b block).terminator.operands →
      (constructed program.function tree inserted).Defined m := fun used =>
    (constructed_terminator renamable placed closed found used).2 m rfl
  have kept : m ∈ block.terminator.names → program.function.IsScalar m →
      (constructed program.function tree inserted).Defined m := fun named isScalar =>
    kept_defined ((program.ssa.defined block inBlocks).2.1 m named) isScalar.2
  obtain ⟨_,returned,selected,_⟩ := program.scalars block inBlocks
  have shape : (∃ version, (constructedBlock program.function tree inserted b block).terminator =
      translateTerminator version block.terminator) ∨
      (constructedBlock program.function tree inserted b block).terminator = block.terminator := by
    unfold constructedBlock
    dsimp only
    split_ifs
    · exact .inl ⟨_,rfl⟩
    · exact .inr rfl
  generalize (constructedBlock program.function tree inserted b block).terminator = new
    at shape named operand
  cases is : block.terminator with
  | switch selector targets =>
    have same : new = .switch selector targets := by
      rcases shape with ⟨_,rfl⟩ | rfl <;> simp [is,translateTerminator]
    subst same
    cases selector with
    | constant w => simp [Terminator.names,Scalar.name?] at named
    | name n =>
      obtain rfl : m = n := by simpa [Terminator.names,Scalar.name?] using named
      exact kept (by rw [is]; exact named) (selected m targets is)
  | ret value =>
    rcases value with _ | ⟨w | n⟩ | v
    · have same : new = .ret none := by
        rcases shape with ⟨_,rfl⟩ | rfl <;> simp [is,translateTerminator]
      simp [same,Terminator.names] at named
    · have same : new = .ret (some (.scalar (.constant w))) := by
        rcases shape with ⟨_,rfl⟩ | rfl <;> simp [is,translateTerminator]
      simp [same,Terminator.names,Element.name?,Scalar.name?] at named
    · have same : new = .ret (some (.scalar (.name n))) := by
        rcases shape with ⟨_,rfl⟩ | rfl <;> simp [is,translateTerminator]
      subst same
      obtain rfl : m = n := by simpa [Terminator.names,Element.name?,Scalar.name?] using named
      exact kept (by rw [is]; exact named) (returned m is)
    · obtain ⟨v',same⟩ : ∃ v', new = .ret (some (.collection v')) := by
        rcases shape with ⟨_,rfl⟩ | rfl <;> simp [is,translateTerminator]
      subst same
      cases v' <;> simp_all [Terminator.names,Element.name?,Value.name?,Terminator.operands,
        Element.collection?]

theorem entry_defined {t : Nat} {block : BasicBlock}
    (found : program.function.blocks[t]? = some block) {n : Name} {phi : Phi}
    (inPhis : (n,phi) ∈ (constructedBlock program.function tree inserted t block).phis)
    {entry : Nat × Element} (member : entry ∈ phi.incoming) {m : Name}
    (named : entry.2.name? = some m) :
    (constructed program.function tree inserted).Defined m := by
  rcases constructed_phi found inPhis with ⟨isPhi,incoming⟩ | ⟨isScalar,inOld⟩
  · obtain ⟨value,inInitial,same⟩ := constructed_incoming incoming member
    have edge : t ∈ program.function.successors entry.1 := mem_predecessors.mp
      ((initialIncoming_edges isPhi).mem_iff.mp (List.mem_map_of_mem inInitial))
    obtain ⟨pred,found'⟩ : ∃ pred, program.function.blocks[entry.1]? = some pred := by
      rw [Function.successors_eq] at edge
      cases at_ : program.function.blocks[entry.1]? with
      | none => simp [at_] at edge
      | some pred => exact ⟨pred,rfl⟩
    refine (constructed_entry renamable placed closed isPhi inInitial found' rfl).2 m ?_
    rw [same] at named
    generalize (if entry.1 ∈ tree.preorder then _ else value : Value) = renamed at named
    cases renamed <;> simp_all [Element.name?,Value.name?]
  · have inBlocks := List.mem_of_getElem? found
    have typed := program.phi_types block inBlocks n phi inOld _ member
    rw [isScalar] at typed
    obtain ⟨source,(_ | n') | v⟩ := entry
    · simp [Element.name?,Scalar.name?] at named
    · obtain rfl : n' = m := by simpa [Element.name?,Scalar.name?] using named
      exact kept_defined ((program.ssa.defined block inBlocks).2.2 n phi inOld _ member _ named)
        ((program.scalars block inBlocks).2.2.2 n phi inOld source _ member).2
    · simp [Element.collection?] at typed

theorem constructed_ssa : (constructed program.function tree inserted).Ssa := by
  have blocks : ∀ b new, (constructed program.function tree inserted).blocks[b]? = some new →
      ∃ block, program.function.blocks[b]? = some block ∧
        new = constructedBlock program.function tree inserted b block := by
    intro b new found
    rw [constructed_block,Option.map_eq_some_iff] at found
    exact found.imp fun block same => ⟨same.1,same.2.symm⟩
  have members : ∀ new ∈ (constructed program.function tree inserted).blocks,
      ∃ b block, program.function.blocks[b]? = some block ∧
        new = constructedBlock program.function tree inserted b block := by
    intro new member
    obtain ⟨b,bound,rfl⟩ := List.mem_iff_getElem.mp member
    exact ⟨b,blocks b _ (List.getElem?_eq_getElem bound)⟩
  constructor
  · rintro b new isNew k n inst at_ operand used
    obtain ⟨block,found,rfl⟩ := blocks b new isNew
    exact (constructed_usable renamable placed closed found at_ used).1
  · rintro b new isNew operand used
    obtain ⟨block,found,rfl⟩ := blocks b new isNew
    exact (constructed_terminator renamable placed closed found used).1
  · rintro new member n phi inPhis s value entry pred isNew
    obtain ⟨t,block,found,rfl⟩ := members new member
    obtain ⟨old,found',rfl⟩ := blocks s pred isNew
    rcases constructed_phi found inPhis with ⟨isPhi,incoming⟩ | ⟨isScalar,inOld⟩
    · obtain ⟨original,inInitial,same⟩ := constructed_incoming incoming entry
      exact (constructed_entry renamable placed closed isPhi inInitial found'
        (Element.collection.inj same)).1
    · have typed := program.phi_types block (List.mem_of_getElem? found) n phi inOld _ entry
      rw [isScalar] at typed
      exact absurd typed (by simp [Element.collection?])
  · rintro new member n phi inPhis s first second entry entry'
    obtain ⟨t,block,found,rfl⟩ := members new member
    rcases constructed_phi found inPhis with ⟨isPhi,incoming⟩ | ⟨isScalar,inOld⟩
    · obtain ⟨original,inInitial,same⟩ := constructed_incoming incoming entry
      obtain ⟨original',inInitial',same'⟩ := constructed_incoming incoming entry'
      obtain rfl := incoming_agree isPhi inInitial inInitial'
      exact Element.collection.inj (same.trans same'.symm)
    · have typed := program.phi_types block (List.mem_of_getElem? found) n phi inOld _ entry
      rw [isScalar] at typed
      exact absurd typed (by simp [Element.collection?])
  · rintro new member
    obtain ⟨b,block,found,rfl⟩ := members new member
    refine ⟨fun n inst inBody m named => ?_,fun m named => ?_,
      fun n phi inPhis entry inIncoming m named => ?_⟩
    · obtain ⟨k,bound,at_⟩ := List.mem_iff_getElem.mp inBody
      exact instruction_defined renamable placed closed found
        ((List.getElem?_eq_getElem bound).trans (congrArg some at_)) named
    · exact terminator_defined renamable placed closed found named
    · exact entry_defined renamable placed closed found inPhis inIncoming named

end

/-- On such functions the pass ends, and its result is in SSA form. -/
theorem construct_ssa (program : Program) (tree : Tree program.function)
    (renamable : Renamable program tree) {typed : Name → Bool} (types : typesFound tree typed = true) :
    ∃ result, construct program.function tree typed = some result ∧ result.Ssa := by
  obtain ⟨inserted,found,placed,closed⟩ := placement tree renamable.reachable
  exact ⟨_,construct_eq found placed (renamable.walkable placed closed) types,
    constructed_ssa renamable placed closed⟩

/-- Without splits, unreachable blocks and double edges only constants are left to exclude. -/
theorem renamable_of_unsplit (program : Program) (tree : Tree program.function)
    (reachable : ∀ b < program.function.blocks.length,program.function.graph.Reachable b)
    (insts : ∀ block ∈ program.function.blocks,∀ entry ∈ block.body,
      Inst.NoConstant entry.2 ∧ entry.2.isSplit = false)
    (incoming : ∀ block ∈ program.function.blocks,∀ entry ∈ block.phis,∀ edge ∈ entry.2.incoming,
      ∀ k,edge.2 ≠ .collection (.constant k))
    (single : ∀ b < program.function.blocks.length,(program.function.successors b).Nodup) :
    Renamable program tree := by
  have unsplit : ∀ x,program.function.splitResult x = false := by
    intro x
    rw [Function.splitResult]
    cases x with
    | inst b i =>
      cases found : program.function.instruction? (.inst b i) with
      | none => rfl
      | some inst =>
        obtain ⟨block,n,isBlock,entry⟩ := Function.instruction?_eq_some found
        exact (insts block (List.mem_of_getElem? isBlock) _ (List.mem_of_getElem? entry)).2
    | _ => rfl
  have inside : ∀ {b : Nat} {block : BasicBlock},program.function.blocks[b]? = some block →
      b < program.function.blocks.length := fun found => (List.getElem?_eq_some_iff.mp found).1
  refine ⟨?_,?_,?_,fun _ _ _ _ _ x _ => unsplit x,?_,fun _ _ _ _ _ _ x _ _ => unsplit x,?_,?_⟩
  · intro x variable_ b parent
    apply reachable
    rcases List.mem_append.mp parent with own | other
    · rcases (mem_memoirNames.mp variable_).2 with ⟨_,_,rfl⟩ | ⟨block,inBlocks,named⟩
      · exact absurd own List.not_mem_nil
      · obtain ⟨s,found⟩ := List.mem_iff_getElem?.mp inBlocks
        rw [program.names_block found named] at own
        obtain rfl := List.mem_singleton.mp own
        exact inside found
    · exact List.mem_range.mp (List.mem_filter.mp other).1
  · exact fun b block _ found n inst member => (insts block (List.mem_of_getElem? found) _ member).1
  · exact fun block inBlocks n phi member s k _ constant => incoming block inBlocks _ member _ constant k rfl
  · exact fun b block unreachable found => absurd (reachable b (inside found)) unreachable
  · exact fun x split => absurd split (by simp [unsplit x])
  · intro s _ t twice
    have known : s < program.function.blocks.length := by
      by_contra outside
      have none : program.function.successors s = [] := by
        simp [Function.successors,List.getElem?_eq_none (Nat.not_lt.mp outside)]
      simp [none] at twice
    exact absurd (List.nodup_iff_count_le_one.mp (single s known) t) (Nat.not_le.mpr twice)

/-- Writes to two of three collections on one side of a branch, and a PHI node behind it. -/
def branchThenRead : Function where
  arguments := 4
  blocks := [
    ⟨[],[],.switch (.name (.argument 3)) [1,2]⟩,
    ⟨[],[(.inst 1 0,.mutIndexWrite (.scalar (.constant 7)) (.name (.argument 0)) (.constant 0)),
      (.inst 1 1,.mutIndexWrite (.scalar (.constant 8)) (.name (.argument 1)) (.constant 0))],
      .switch (.constant 0) [3]⟩,
    ⟨[],[],.switch (.constant 0) [3]⟩,
    ⟨[(.phi 3 0,⟨[(1,.collection (.name (.argument 1))),(2,.collection (.name (.argument 2)))]⟩)],
      [(.inst 3 0,.indexRead (.name (.phi 3 0)) (.constant 0)),
        (.inst 3 1,.indexRead (.name (.argument 0)) (.constant 0))],.ret none⟩]
  valueIsCollectionType
    | .argument i => i < 3
    | .phi _ _ => true
    | _ => false

def branchTree : Tree branchThenRead := .acyclic branchThenRead.graph 3 [0,1,2,3] (by decide)

def branchProgram : Program := branchThenRead.accepted branchTree (by decide)

theorem branch_renamable : Renamable branchProgram branchTree := by
  apply renamable_of_unsplit
  · intro b bound
    exact (branchTree.preorder_reachable b).mp (List.mem_range.mpr bound)
  · have plain : ∀ block ∈ branchThenRead.blocks,∀ entry ∈ block.body,
        entry.2.visited.all (·.name?.isSome) = true ∧ entry.2.isSplit = false := by decide
    intro block inBlocks entry member
    refine ⟨fun k constant => ?_,(plain block inBlocks entry member).2⟩
    exact absurd (List.all_eq_true.mp (plain block inBlocks entry member).1 _ constant) Bool.false_ne_true
  · have named : ∀ block ∈ branchThenRead.blocks,∀ entry ∈ block.phis,∀ edge ∈ entry.2.incoming,
        edge.2.name?.isSome = true := by decide
    rintro block inBlocks entry member edge incoming k same
    have isNamed := named block inBlocks entry member edge incoming
    rw [same] at isNamed
    exact absurd isNamed Bool.false_ne_true
  · decide

def branchTyped : Name → Bool
  | .inst 1 _ => true
  | _ => false

theorem construct_ssa_branchThenRead : ∃ result,
    construct branchThenRead branchTree branchTyped = some result ∧ result.Ssa :=
  construct_ssa branchProgram branchTree branch_renamable (by decide)

def storedSplit : Function where
  arguments := 2
  blocks := [⟨[],[(.inst 0 0,.mutSeqSplit (.name (.argument 0)) (.constant 0) (.constant 1)),
    (.inst 0 1,.mutIndexWrite (.collection (.name (.inst 0 0))) (.name (.argument 1)) (.constant 0))],
    .ret none⟩]
  valueIsCollectionType
    | .argument _ => true
    | .inst 0 0 => true
    | _ => false

def storedSplitTree : Tree storedSplit := .acyclic storedSplit.graph 1 [0] (by decide)

def storedSplitResult : Function :=
  {storedSplit with
    blocks := [⟨[],[(.ssa 0 0 0,.seqCopy (.name (.argument 0)) (.constant 0) (.constant 1)),
      (.ssa 0 0 1,.seqRemove (.name (.argument 0)) (.constant 0) (.constant 1)),
      (.ssa 0 1 0,.indexWrite (.collection (.name (.inst 0 0))) (.name (.argument 1))
        (.constant 0))],.ret none⟩]}

theorem storedSplit_erased : ∃ (program : Program) (tree : Tree program.function) (typed : Name → Bool),
    ∃ result, construct program.function tree typed = some result ∧ ¬ result.Ssa := by
  refine ⟨storedSplit.accepted storedSplitTree (by decide),storedSplitTree,fun _ => true,storedSplitResult,
    rfl,fun ssa => ?_⟩
  have stored := (ssa.defined _ (List.mem_singleton.mpr rfl)).1 (.ssa 0 1 0) _
    (List.mem_of_getElem? (i := 2) rfl) (.inst 0 0) (by decide)
  rcases stored with ⟨i,_,same⟩ | ⟨block,member,named⟩
  · exact absurd same (by simp)
  · rw [List.mem_singleton.mp member] at named
    exact absurd named (by decide)

end Construction
end Memoir
