import Memoir.Constructed

/-! What construction returns: the program with every operand renamed to its nearest
version, block by block along the walk. -/
namespace Memoir.Construction
open Dominance

section
variable (function : Function) (tree : Tree function) (inserted : List (Name × List Nat))

open Classical in
/-- An incoming value during the walk, when some edges into the PHI node are visited. -/
noncomputable def progress (visited : Nat → Name → Prop) (phi : Name) (entry : Nat × Value) :
    Nat × Value :=
  if visited entry.1 phi then renamedEntry function tree inserted entry else entry

def Incoming (visited : Nat → Name → Prop) (walk : Walk) : Prop :=
  ∀ phi, walk.incoming phi = (initialIncoming function phi).map
    (progress function tree inserted visited phi)

/-- The walk comes to a point with chains that lead to the nearest versions. -/
def Met (program : Program) (tree : Tree program.function) (inserted : List (Name × List Nat))
    (p : Point) : Prop :=
  ∃ reaching, AllChained program tree inserted reaching p

def VisitedFrom (done : List Nat) (s : Nat) (phi : Name) : Prop :=
  s ∈ done ∧ ∃ t ∈ function.successors s, phi ∈ collectionPhis function inserted t

end

section
variable {program : Program} {tree : Tree program.function} {inserted : List (Name × List Nat)}

theorem progress_fst (visited : Nat → Name → Prop) (phi : Name) (entry : Nat × Value) :
    (progress program.function tree inserted visited phi entry).1 = entry.1 := by
  unfold progress renamedEntry
  split <;> rfl

theorem progress_congr {visited visited' : Nat → Name → Prop} {phi : Name} {entry : Nat × Value}
    (same : visited entry.1 phi ↔ visited' entry.1 phi) :
    progress program.function tree inserted visited phi entry =
      progress program.function tree inserted visited' phi entry := by
  unfold progress
  by_cases holds : visited entry.1 phi
  · rw [if_pos holds,if_pos (same.mp holds)]
  · rw [if_neg holds,if_neg fun this => holds (same.mpr this)]

theorem Incoming.congr {visited visited' : Nat → Name → Prop} {walk : Walk}
    (incoming : Incoming program.function tree inserted visited walk)
    (same : ∀ s phi, visited s phi ↔ visited' s phi) :
    Incoming program.function tree inserted visited' walk := by
  have equal : visited = visited' := funext fun s => funext fun phi => propext (same s phi)
  exact equal ▸ incoming

theorem terminator_variable {block : BasicBlock} (inBlocks : block ∈ program.function.blocks)
    {x : Name} (member : .name x ∈ block.terminator.operands) :
    x ∈ memoirNames program.function := by
  refine mem_memoirNames.mpr ⟨(program.collections block inBlocks).2.1 x member,
    (program.ssa.defined block inBlocks).2.1 x ?_⟩
  generalize block.terminator = terminator at member
  rcases terminator with (_ | ⟨s⟩ | v) | ⟨selector,targets⟩
  · simp [Terminator.operands] at member
  · simp [Terminator.operands,Element.collection?] at member
  · simp only [Terminator.operands,Element.collection?,Option.bind_some,Option.mem_toList,
      Option.some.injEq] at member
    simp [Terminator.names,Element.name?,Value.name?,member]
  · simp [Terminator.operands] at member

theorem incoming_agree {t s : Nat} {phi : Name} {first second : Value}
    (member : phi ∈ collectionPhis program.function inserted t)
    (entry : (s,first) ∈ initialIncoming program.function phi)
    (entry' : (s,second) ∈ initialIncoming program.function phi) :
    first = second := by
  rcases mem_collectionPhis.mp member with ⟨block,i,node,found,at_,rfl,_⟩ | ⟨x,rfl,_⟩
  · rw [initialIncoming_phi found at_] at entry entry'
    exact program.ssa.agree block (List.mem_of_getElem? found) _ _ (List.mem_of_getElem? at_) s _ _
      (mem_collections.mp entry) (mem_collections.mp entry')
  · simp only [initialIncoming,List.mem_map,Prod.mk.injEq] at entry entry'
    obtain ⟨_,_,_,rfl⟩ := entry
    obtain ⟨_,_,_,rfl⟩ := entry'
    rfl

variable (placed : Placed program inserted) (walkable : Walkable program.function tree inserted)
  {b : Nat} (reachable : program.function.graph.Reachable b)
include placed walkable reachable

omit walkable in
theorem visitBody_spec {block : BasicBlock} (found : program.function.blocks[b]? = some block)
    (noConstant : ∀ n inst, (n,inst) ∈ block.body → Inst.NoConstant inst)
    (rest : List (Name × Inst)) : ∀ i reaching, block.body.drop i = rest →
      AllChained program tree inserted reaching (.before b i) →
      ∃ after, visitBody tree b i reaching rest =
          some (after,rest.mapIdx fun j entry =>
            translate (nearest program.function tree inserted (.before b (i + j))) b (i + j)
              entry.1 entry.2) ∧
        AllChained program tree inserted after (.before b (i + rest.length)) ∧
        ∀ j, i ≤ j → j ≤ i + rest.length → Met program tree inserted (.before b j) := by
  induction rest with
  | nil =>
    intro i reaching _ all
    refine ⟨reaching,rfl,all,fun j lower upper => ⟨reaching,?_⟩⟩
    obtain rfl := Nat.le_antisymm upper lower
    exact all
  | cons entry rest ih =>
    intro i reaching dropped all
    obtain ⟨n,inst⟩ := entry
    have entry : block.body[i]? = some (n,inst) := by
      rw [← List.head?_drop,dropped,List.head?_cons]
    obtain rfl := program.name_at found entry
    have dropped' : block.body.drop (i + 1) = rest := by
      rw [← List.tail_drop,dropped,List.tail_cons]
    obtain ⟨middle,visited,next⟩ := visit_spec placed reachable
      (Function.instruction?_eq found entry) (noConstant _ _ (List.mem_of_getElem? entry)) all
    obtain ⟨after,rest',last,met⟩ := ih (i + 1) middle dropped' next
    refine ⟨after,?_,?_,fun j lower upper => ?_⟩
    · simp only [visitBody,visited,rest',Option.bind_eq_bind,Option.bind_some,Option.pure_def,
        List.mapIdx_cons,Nat.add_zero,Nat.add_assoc,Nat.add_comm 1]
    · rw [List.length_cons,Nat.add_comm rest.length,← Nat.add_assoc]
      exact last
    · rw [List.length_cons] at upper
      rcases Nat.eq_or_lt_of_le lower with rfl | lower
      · exact ⟨reaching,all⟩
      · exact met j lower (by omega)

omit walkable in
theorem visitTerminator_spec {block : BasicBlock} (found : program.function.blocks[b]? = some block)
    {reaching : Reaching}
    (all : AllChained program tree inserted reaching (.before b block.body.length)) :
    ∃ after, visitTerminator tree reaching b block.body.length block.terminator =
        some (after,translateTerminator
          (nearest program.function tree inserted (.before b block.body.length)) block.terminator) ∧
      AllChained program tree inserted after (.before b block.body.length) := by
  have ready : ∀ x, .name x ∈ block.terminator.operands →
      Ready program tree x (.before b block.body.length) := by
    intro x member
    have usable := program.ssa.terminator b block found _ member
    exact ready_of_dominates (terminator_variable (List.mem_of_getElem? found) member)
      (program.available_dominates tree (usable.2 x rfl reachable))
  generalize block.terminator = terminator at ready
  rcases terminator with (_ | ⟨s⟩ | v) | ⟨selector,targets⟩
  · exact ⟨reaching,rfl,all⟩
  · exact ⟨reaching,rfl,all⟩
  · obtain ⟨after,renamed,all⟩ := renameOperands_spec placed reachable rfl [v] reaching all
      fun x member => ready x (by simpa [Terminator.operands,Element.collection?] using member)
    refine ⟨after,?_,all⟩
    simp [visitTerminator,renamed,translateTerminator]
  · exact ⟨reaching,rfl,all⟩

theorem visitSuccessorPhi_spec {block : BasicBlock}
    (found : program.function.blocks[b]? = some block) {t : Nat}
    (edge : t ∈ program.function.successors b) {phi : Name}
    (member : phi ∈ collectionPhis program.function inserted t) {walk : Walk}
    {visited : Nat → Name → Prop}
    (single : (program.function.successors b).count t ≤ 1 → ¬ visited b phi)
    (all : AllChained program tree inserted walk.reaching (.before b block.body.length))
    (incoming : Incoming program.function tree inserted visited walk) :
    ∃ after, visitSuccessorPhi tree b block.body.length walk phi = some after ∧
      after.code = walk.code ∧
      AllChained program tree inserted after.reaching (.before b block.body.length) ∧
      Incoming program.function tree inserted (fun s n => visited s n ∨ (s = b ∧ n = phi)) after := by
  have edges := initialIncoming_edges member
  have end_ : endPoint program.function b = .before b block.body.length := by simp [endPoint,found]
  obtain ⟨value,here,entry⟩ := exists_lookup
    (edges.mem_iff.mpr (mem_predecessors.mpr edge))
  obtain ⟨x,rfl⟩ : ∃ x, value = .name x := by
    cases value with
    | name x => exact ⟨x,rfl⟩
    | constant k => exact absurd entry (walkable.incoming b reachable t edge phi member k)
    | null =>
      obtain ⟨bound,_⟩ := List.getElem?_eq_some_iff.mp found
      exact absurd entry (incoming_not_null member bound)
  have ready : Ready program tree x (endPoint program.function b) :=
    ready_incoming placed member edge reachable entry
  rw [end_] at ready
  obtain ⟨update,all⟩ := update_all placed reachable rfl ready all
  have single' : ¬ visited b phi ∨
      rename (nearest program.function tree inserted (endPoint program.function b)) (.name x) =
        .name x := by
    by_cases once : (program.function.successors b).count t ≤ 1
    · exact .inl (single once)
    · exact .inr (walkable.double b reachable t (by omega) phi member _ entry)
  have current : (walk.incoming phi).lookup b = some (.name x) := by
    rw [incoming phi,lookup_map_values (progress_fst visited phi) here]
    unfold progress
    split
    · rw [renamedEntry,single'.resolve_left fun this => this (by assumption)]
    · rfl
  have renamed : renamedEntry program.function tree inserted (b,.name x) =
      (b,.name (nearest program.function tree inserted (.before b block.body.length) x)) := by
    rw [renamedEntry,end_]
    rfl
  have visit : visitSuccessorPhi tree b block.body.length walk phi = some {walk with
      reaching := setReachingDefinition walk.reaching (.name x)
        (.name (nearest program.function tree inserted (.before b block.body.length) x))
      incoming := Function.update walk.incoming phi (setIncoming b
        (.name (nearest program.function tree inserted (.before b block.body.length) x))
        (walk.incoming phi))} := by
    simp [visitSuccessorPhi,current,update]
  refine ⟨_,visit,rfl,all,fun n => ?_⟩
  by_cases other : n = phi
  · subst other
    simp only [Function.update_self]
    by_cases once : (program.function.successors b).count t ≤ 1
    · have keys : ((walk.incoming n).map Prod.fst).count b ≤ 1 := by
        rw [incoming n,List.map_map,show Prod.fst ∘ progress program.function tree inserted visited n =
          Prod.fst from funext (progress_fst visited n),edges.count_eq,count_predecessors]
        exact once
      rw [setIncoming_once _ keys,incoming n,List.map_map]
      refine List.map_congr_left fun e member' => ?_
      simp only [Function.comp_apply,progress_fst]
      split_ifs with same
      · obtain rfl : e = (b,.name x) :=
          Prod.ext same (incoming_agree member (same ▸ member' : (b,e.2) ∈ _) entry)
        rw [progress,if_pos (.inr ⟨rfl,rfl⟩),renamed]
      · exact progress_congr (by simp [same])
    · have fixed := walkable.double b reachable t (by omega) n member _ entry
      rw [end_] at fixed
      simp only [rename] at fixed
      rw [fixed,setIncoming_self current,incoming n]
      refine List.map_congr_left fun e member' => ?_
      by_cases same : e.1 = b
      · obtain rfl : e = (b,.name x) :=
          Prod.ext same (incoming_agree member (same ▸ member' : (b,e.2) ∈ _) entry)
        unfold progress
        rw [renamed,fixed]
        split <;> split <;> rfl
      · exact progress_congr (by simp [same])
  · simp only [Function.update_of_ne other,incoming n]
    exact List.map_congr_left fun e _ => progress_congr (by simp [other])

theorem visitSuccessorPhis_spec {block : BasicBlock}
    (found : program.function.blocks[b]? = some block) {t : Nat}
    (edge : t ∈ program.function.successors b) (phis : List Name) :
    ∀ (walk : Walk) (visited : Nat → Name → Prop), phis.Nodup →
      (∀ phi ∈ phis, phi ∈ collectionPhis program.function inserted t) →
      ((program.function.successors b).count t ≤ 1 → ∀ phi ∈ phis, ¬ visited b phi) →
      AllChained program tree inserted walk.reaching (.before b block.body.length) →
      Incoming program.function tree inserted visited walk →
      ∃ after, visitSuccessorPhis tree b block.body.length walk phis = some after ∧
        after.code = walk.code ∧
        AllChained program tree inserted after.reaching (.before b block.body.length) ∧
        Incoming program.function tree inserted
          (fun s n => visited s n ∨ (s = b ∧ n ∈ phis)) after := by
  induction phis with
  | nil =>
    exact fun walk visited _ _ _ all incoming =>
      ⟨walk,rfl,rfl,all,incoming.congr fun s n => by simp⟩
  | cons phi phis ih =>
    intro walk visited nodup subset single all incoming
    obtain ⟨absent,nodup⟩ := List.nodup_cons.mp nodup
    obtain ⟨middle,first,code,all,incoming⟩ := visitSuccessorPhi_spec placed walkable reachable found
      edge (subset phi List.mem_cons_self) (fun once => single once phi List.mem_cons_self) all incoming
    have single' : (program.function.successors b).count t ≤ 1 → ∀ n ∈ phis,
        ¬ (visited b n ∨ (b = b ∧ n = phi)) := by
      rintro once n member (visited' | ⟨_,rfl⟩)
      · exact single once n (List.mem_cons_of_mem _ member) visited'
      · exact absent member
    obtain ⟨after,rest,code',all,incoming⟩ := ih middle _ nodup
      (fun n member => subset n (List.mem_cons_of_mem _ member)) single' all incoming
    refine ⟨after,?_,code'.trans code,all,incoming.congr fun s n => ?_⟩
    · simp only [visitSuccessorPhis,List.foldlM_cons,first,Option.bind_eq_bind,Option.bind_some]
      exact rest
    · simp only [List.mem_cons]
      tauto

theorem visitSuccessors_spec {block : BasicBlock}
    (found : program.function.blocks[b]? = some block) {done : List Nat} (fresh : b ∉ done)
    (rest : List Nat) : ∀ before walk, program.function.successors b = before ++ rest →
      AllChained program tree inserted walk.reaching (.before b block.body.length) →
      Incoming program.function tree inserted (fun s n => VisitedFrom program.function inserted done s n ∨
        (s = b ∧ ∃ t ∈ before, n ∈ collectionPhis program.function inserted t)) walk →
      ∃ after, rest.foldlM (fun walk successor => visitSuccessorPhis tree b block.body.length walk
          (collectionPhis program.function inserted successor)) walk = some after ∧
        after.code = walk.code ∧
        AllChained program tree inserted after.reaching (.before b block.body.length) ∧
        Incoming program.function tree inserted (VisitedFrom program.function inserted (b :: done))
          after := by
  induction rest with
  | nil =>
    intro before walk split all incoming
    refine ⟨walk,rfl,rfl,all,incoming.congr fun s n => ?_⟩
    rw [List.append_nil] at split
    simp only [VisitedFrom,List.mem_cons,← split]
    constructor
    · rintro (⟨member,visited⟩ | ⟨rfl,visited⟩)
      · exact ⟨.inr member,visited⟩
      · exact ⟨.inl rfl,visited⟩
    · rintro ⟨rfl | member,visited⟩
      · exact .inr ⟨rfl,visited⟩
      · exact .inl ⟨member,visited⟩
  | cons t rest ih =>
    intro before walk split all incoming
    have edge : t ∈ program.function.successors b := by simp [split]
    have single : (program.function.successors b).count t ≤ 1 →
        ∀ phi ∈ collectionPhis program.function inserted t,
          ¬ (VisitedFrom program.function inserted done b phi ∨
            (b = b ∧ ∃ t ∈ before, phi ∈ collectionPhis program.function inserted t)) := by
      rintro once phi member (visited | ⟨_,t',earlier,member'⟩)
      · exact fresh visited.1
      · obtain rfl := Option.some.inj
          ((collectionPhis_block member').symm.trans (collectionPhis_block member))
        rw [split,List.count_append,List.count_cons_self] at once
        have := List.count_pos_iff.mpr earlier
        omega
    obtain ⟨middle,first,code,all,incoming⟩ := visitSuccessorPhis_spec placed walkable reachable found
      edge _ walk _ (collectionPhis_nodup placed t) (fun _ => id) single all incoming
    obtain ⟨after,rest',code',all,incoming⟩ := ih (before ++ [t]) middle (by simp [split]) all
      (incoming.congr fun s n => by
        simp only [List.mem_append,List.mem_singleton,or_and_right,exists_or,exists_eq_left,
          and_or_left,or_assoc])
    refine ⟨after,?_,code'.trans code,all,incoming⟩
    simp only [List.foldlM_cons,first,Option.bind_eq_bind,Option.bind_some]
    exact rest'

theorem visitBlock_spec {block : BasicBlock}
    (found : program.function.blocks[b]? = some block) {done : List Nat} (fresh : b ∉ done)
    {walk : Walk} (all : AllChained program tree inserted walk.reaching (.phi b))
    (incoming : Incoming program.function tree inserted (VisitedFrom program.function inserted done) walk) :
    ∃ after, visitBlock tree inserted walk b = some after ∧
      after.code = (b,translatedCode program.function tree inserted b block) :: walk.code ∧
      AllChained program tree inserted after.reaching (.before b block.body.length) ∧
      Incoming program.function tree inserted (VisitedFrom program.function inserted (b :: done))
        after ∧
      ∀ i ≤ block.body.length, Met program tree inserted (.before b i) := by
  have all := chained_phis found all block.phis (List.Subset.refl _)
  obtain ⟨_,phis,all⟩ := visitInsertedPhis_spec placed reachable (insertedAt inserted b) _
    (placed.nodup b) (fun _ => id) (fun x variable_ => by
      split_ifs with member
      · exact all x variable_
      · exact chained_start placed variable_ member (all x variable_))
  obtain ⟨_,body,all,met⟩ := visitBody_spec placed reachable found
    (walkable.operands b block reachable found) block.body 0 _ rfl all
  rw [Nat.zero_add] at all
  obtain ⟨reaching,terminator,all⟩ := visitTerminator_spec placed reachable found all
  obtain ⟨after,edges,code,all,incoming⟩ := visitSuccessors_spec placed walkable reachable found fresh
    (program.function.successors b) [] {walk with
      reaching
      code := (b,translatedCode program.function tree inserted b block) :: walk.code} rfl all
    (fun phi => (incoming phi).trans (by
      congr 2
      funext s n
      simp))
  refine ⟨after,?_,code,all,incoming,fun i upper => met i (Nat.zero_le _) (by omega)⟩
  simp only [Nat.zero_add] at body
  simp only [visitBlock,found,phis,body,terminator,Option.bind_eq_bind,Option.bind_some]
  exact edges

omit walkable reachable placed in
/-- From the end of a block to the start of the next one in the walk. -/
theorem chained_block {before after : List Nat} {b' : Nat} {block : BasicBlock}
    (split : tree.preorder = before ++ b :: b' :: after)
    (found : program.function.blocks[b]? = some block) {reaching : Reaching}
    (all : AllChained program tree inserted reaching (.before b block.body.length)) :
    AllChained program tree inserted reaching (.phi b') := by
  have index := tree.index_of_split split
  have index' : tree.preorder.idxOf b' = before.length + 1 := by
    rw [tree.index_of_split ((split.trans (List.append_cons _ _ _))),List.length_append]
    rfl
  intro x variable_
  refine (all x variable_).advance (.inl ?_) fun w version early s at_ => ?_
  · simp only [Point.block,index,index']
    omega
  · have position := fun same : s = b => version_position variable_ version (same ▸ at_) found
    rcases early s at_ with earlier | ⟨_,lower⟩
    · simp only [Point.block,index,index'] at earlier ⊢
      by_cases same : s = b
      · exact .inr ⟨same,Nat.lt_succ_of_le (position same)⟩
      · have earlier' : tree.preorder.idxOf s < tree.preorder.idxOf b' := index' ▸ earlier
        have apart : tree.preorder.idxOf s ≠ tree.preorder.idxOf b := fun equal =>
          same ((List.idxOf_inj ((tree.preorder_reachable s).mpr
            (tree.reachable_of_index earlier'))).mp equal)
        omega
    · exact absurd lower (Nat.not_lt_zero _)

end

section
variable {program : Program} {tree : Tree program.function} {inserted : List (Name × List Nat)}

theorem reachable_bound {b : Nat} (reachable : program.function.graph.Reachable b) :
    b < program.function.blocks.length := by
  obtain ⟨visited,walk⟩ := reachable
  cases walk with
  | start => exact program.nonempty
  | step walk edge => exact (program.targets _ _ edge).1

theorem chained_initial {b : Nat} {after : List Nat} (split : tree.preorder = b :: after) :
    AllChained program tree inserted (initialWalk program.function).reaching (.phi b) := by
  have index : tree.preorder.idxOf b = 0 := by
    rw [split,List.idxOf_cons_self]
  have none : ∀ w, Early tree w (.phi b) → w.block? = none := by
    intro w early
    cases at_ : w.block? with
    | none => rfl
    | some s =>
      rcases early s at_ with earlier | ⟨_,lower⟩
      · exact absurd (index ▸ earlier) (Nat.not_lt_zero _)
      · exact absurd lower (Nat.not_lt_zero _)
  intro x variable_
  have self : (initialWalk program.function).reaching.lookup (.name x) = some (.name x) := by
    cases found : (initialWalk program.function).reaching.lookup (.name x) with
    | none =>
      have absent := List.lookup_eq_none_iff.mp found (.name x,.name x)
        (List.mem_map_of_mem variable_)
      exact absurd absent (by simp)
    | some value =>
      obtain ⟨y,_,same⟩ := List.mem_map.mp (mem_of_lookup found)
      obtain ⟨here,there⟩ := Prod.mk.inj same
      rw [← there,here]
  have alone : ∀ w, Version program.function inserted x w → Early tree w (.phi b) →
      w = firstVersion program.function x := by
    intro w version early
    have at_ := none w early
    cases version with
    | first => rfl
    | redefined _ _ => exact absurd at_ (by simp [Name.block?])
    | inserted _ => exact absurd at_ (by simp [Name.block?])
  refine ⟨fun early => ?_,fun v version later early => absurd (alone v version early) later,
    fun _ => self⟩
  have argument := none _ early
  rw [firstVersion_block] at argument
  have first : firstVersion program.function x = x := by
    cases x <;> simp_all [firstVersion,Name.block?]
  have version : Version program.function inserted x x := by
    have version : Version program.function inserted x (firstVersion program.function x) := .first
    rwa [first] at version
  refine ⟨x,self,version,first ▸ early,fun w version early _ _ _ _ => ?_⟩
  exact .inl ((alone w version early).trans first)

/-- The blocks that the walk has translated. -/
def Translated (program : Program) (tree : Tree program.function) (inserted : List (Name × List Nat))
    (done : List Nat) (walk : Walk) : Prop :=
  ∀ b block, program.function.blocks[b]? = some block → walk.code.lookup b =
    if b ∈ done then some (translatedCode program.function tree inserted b block) else none

variable (placed : Placed program inserted) (walkable : Walkable program.function tree inserted)
include placed walkable

theorem visitBlocks_spec (rest : List Nat) : ∀ before walk, tree.preorder = before ++ rest →
    (∀ b after, rest = b :: after → AllChained program tree inserted walk.reaching (.phi b)) →
    Incoming program.function tree inserted (VisitedFrom program.function inserted before) walk →
    Translated program tree inserted before walk →
    ∃ after, rest.foldlM (visitBlock tree inserted) walk = some after ∧
      Incoming program.function tree inserted
        (VisitedFrom program.function inserted tree.preorder) after ∧
      Translated program tree inserted tree.preorder after ∧
      ∀ b ∈ rest, ∀ block, program.function.blocks[b]? = some block → ∀ i ≤ block.body.length,
        Met program tree inserted (.before b i) := by
  induction rest with
  | nil =>
    intro before walk split _ incoming translated
    rw [List.append_nil] at split
    exact ⟨walk,rfl,split ▸ incoming,split ▸ translated,by simp⟩
  | cons b rest ih =>
    intro before walk split all incoming translated
    have fresh : b ∉ before := by
      have nodup := tree.preorder_nodup
      rw [split] at nodup
      exact fun member => (List.nodup_append.mp nodup).2.2 b member b List.mem_cons_self rfl
    have reachable := (tree.preorder_reachable b).mp (by simp [split])
    have found := List.getElem?_eq_getElem (reachable_bound reachable)
    have here := all b rest rfl
    obtain ⟨middle,visited,code,all',incoming,met⟩ :=
      visitBlock_spec placed walkable reachable found fresh here incoming
    have next : ∀ b' after, rest = b' :: after →
        AllChained program tree inserted middle.reaching (.phi b') := by
      rintro b' after rfl
      exact chained_block split found all'
    have incoming' : Incoming program.function tree inserted
        (VisitedFrom program.function inserted (before ++ [b])) middle :=
      incoming.congr fun s n => and_congr_left fun _ => by simp [or_comm]
    have translated' : Translated program tree inserted (before ++ [b]) middle := by
      intro b' block found'
      rw [code,List.lookup_cons]
      by_cases same : b' = b
      · subst same
        obtain rfl := Option.some.inj (found.symm.trans found')
        simp
      · simp [beq_eq_false_iff_ne.mpr same,same,translated b' block found']
    obtain ⟨after,rest',incoming,translated,met'⟩ :=
      ih (before ++ [b]) middle (by simp [split]) next incoming' translated'
    refine ⟨after,?_,incoming,translated,fun b' member block found' => ?_⟩
    · simp only [List.foldlM_cons,visited,Option.bind_eq_bind,Option.bind_some]
      exact rest'
    · rcases List.mem_cons.mp member with rfl | member
      · obtain rfl := Option.some.inj (found.symm.trans found')
        exact met
      · exact met' b' member block found'

end

section
variable (function : Function) (tree : Tree function) (inserted : List (Name × List Nat))

noncomputable def constructedPhi (n : Name) (phi : Phi) : Phi :=
  if function.valueIsCollectionType n then
    ⟨(renamedIncoming function tree inserted (Phi.collections phi)).map fun entry =>
      (entry.1,.collection entry.2)⟩
  else phi

noncomputable def constructedBlock (b : Nat) (block : BasicBlock) : BasicBlock :=
  let phis := block.phis.map (fun entry =>
      (entry.1,constructedPhi function tree inserted entry.1 entry.2)) ++
    (insertedAt inserted b).map fun named => (.insertedPhi b named,
      ⟨(renamedIncoming function tree inserted (initialIncoming function (.insertedPhi b named))).map
        fun entry => (entry.1,.collection entry.2)⟩)
  if b ∈ tree.preorder then
    ⟨phis,(translatedCode function tree inserted b block).1.flatten,
      (translatedCode function tree inserted b block).2⟩
  else ⟨phis,block.body,block.terminator⟩

noncomputable def constructed : Function :=
  {function with blocks := function.blocks.mapIdx (constructedBlock function tree inserted)}

end

theorem renamed_incoming {program : Program} {tree : Tree program.function}
    {inserted : List (Name × List Nat)} {walk : Walk}
    (incoming : Incoming program.function tree inserted
      (VisitedFrom program.function inserted tree.preorder) walk) {t : Nat} {phi : Name}
    (member : phi ∈ collectionPhis program.function inserted t) :
    walk.incoming phi =
      renamedIncoming program.function tree inserted (initialIncoming program.function phi) := by
  rw [incoming phi,renamedIncoming]
  refine List.map_congr_left fun entry member' => ?_
  have edge : t ∈ program.function.successors entry.1 := mem_predecessors.mp
    ((initialIncoming_edges member).mem_iff.mp (List.mem_map_of_mem member'))
  unfold progress
  by_cases reached : entry.1 ∈ tree.preorder
  · rw [if_pos ⟨reached,t,edge,member⟩,if_pos reached]
  · rw [if_neg fun visited => reached visited.1,if_neg reached]

theorem walk_spec {program : Program} {tree : Tree program.function}
    {inserted : List (Name × List Nat)} (placed : Placed program inserted)
    (walkable : Walkable program.function tree inserted) :
    ∃ after, tree.preorder.foldlM (visitBlock tree inserted) (initialWalk program.function) =
        some after ∧
      Incoming program.function tree inserted
        (VisitedFrom program.function inserted tree.preorder) after ∧
      Translated program tree inserted tree.preorder after ∧
      ∀ b ∈ tree.preorder, ∀ block, program.function.blocks[b]? = some block →
        ∀ i ≤ block.body.length, Met program tree inserted (.before b i) :=
  visitBlocks_spec placed walkable tree.preorder [] (initialWalk program.function) rfl
    (fun _ _ split => chained_initial split)
    (fun _ => ((List.map_congr_left fun _ _ => if_neg fun visited =>
      List.not_mem_nil visited.1).trans (List.map_id _)).symm)
    (fun _ _ _ => rfl)

/-- The pass renames every operand to the nearest version. -/
theorem construct_eq {program : Program} {tree : Tree program.function}
    {inserted : List (Name × List Nat)} (placement : insertedPhis tree = some inserted)
    (placed : Placed program inserted) (walkable : Walkable program.function tree inserted)
    {typed : Name → Bool} (types : typesFound tree typed = true) :
    construct program.function tree typed = some (constructed program.function tree inserted) := by
  obtain ⟨walk,walked,incoming,translated,_⟩ := walk_spec placed walkable
  simp only [construct,placement,types,Bool.true_eq_false,if_false,walked,Option.bind_eq_bind,
    Option.bind_some,Option.pure_def,constructed]
  congr 2
  refine List.mapIdx_eq_mapIdx_iff.mpr fun b bound => ?_
  have found := List.getElem?_eq_getElem bound
  have sources : ∀ entry ∈ program.function.blocks[b].phis,
      (entry.1,renamedPhi program.function walk entry.1 entry.2) =
        (entry.1,constructedPhi program.function tree inserted entry.1 entry.2) := by
    rintro ⟨n,phi⟩ member
    obtain ⟨i,inBounds,at_⟩ := List.mem_iff_getElem.mp member
    have at' := (List.getElem?_eq_getElem inBounds).trans (congrArg some at_)
    obtain rfl := program.phi_at found at'
    simp only [renamedPhi,constructedPhi]
    split_ifs with isCollection
    · rw [renamed_incoming incoming (mem_collectionPhis.mpr
        (.inl ⟨_,i,phi,found,at',rfl,isCollection⟩)),initialIncoming_phi found at']
    · rfl
  have new : ∀ named ∈ insertedAt inserted b, (Name.insertedPhi b named,
      (⟨(walk.incoming (.insertedPhi b named)).map fun entry => (entry.1,.collection entry.2)⟩ : Phi)) =
      (.insertedPhi b named,⟨(renamedIncoming program.function tree inserted
        (initialIncoming program.function (.insertedPhi b named))).map
          fun entry => (entry.1,.collection entry.2)⟩) := by
    intro named member
    rw [renamed_incoming incoming (mem_collectionPhis.mpr (.inr ⟨named,rfl,member⟩))]
  simp only [renamedBlock,constructedBlock,List.map_congr_left sources,List.map_congr_left new,
    translated b _ found]
  split_ifs with reached <;> rfl

/-- Where a variable is defined it has a nearest version. -/
theorem nearest_of_ready {program : Program} {tree : Tree program.function}
    {inserted : List (Name × List Nat)} (placed : Placed program inserted)
    (walkable : Walkable program.function tree inserted) {b : Nat} {block : BasicBlock}
    (reachable : program.function.graph.Reachable b)
    (found : program.function.blocks[b]? = some block) {i : Nat} (bound : i ≤ block.body.length)
    {x : Name} (ready : Ready program tree x (.before b i)) :
    Nearest program.function tree inserted x (.before b i)
      (nearest program.function tree inserted (.before b i) x) := by
  obtain ⟨_,_,_,_,met⟩ := walk_spec placed walkable
  obtain ⟨reaching,all⟩ := met b ((tree.preorder_reachable b).mpr reachable) block found i bound
  exact (update_chained placed reachable rfl ready (all x ready.1)).2.1

end Memoir.Construction
