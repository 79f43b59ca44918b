import Memoir.Visitors
import Mathlib.Data.List.Nodup

/-! The PHI nodes that the walk meets and updates, and what they do to the chains of
reaching definitions. -/
namespace Memoir.Construction
open Dominance

theorem setIncoming_self {source : Nat} {value : Value} {entries : List (Nat × Value)}
    (found : entries.lookup source = some value) : setIncoming source value entries = entries := by
  induction entries with
  | nil => rfl
  | cons entry rest ih =>
    obtain ⟨block,old⟩ := entry
    by_cases same : block = source
    · subst same
      simp only [List.lookup_cons_self,Option.some.injEq] at found
      simp [setIncoming,found]
    · simp only [List.lookup_cons,beq_eq_false_iff_ne.mpr (Ne.symm same)] at found
      simp [setIncoming,same,ih found]

theorem setIncoming_once {source : Nat} (value : Value) {entries : List (Nat × Value)}
    (once : (entries.map Prod.fst).count source ≤ 1) : setIncoming source value entries =
      entries.map fun entry => if entry.1 = source then (source,value) else entry := by
  induction entries with
  | nil => rfl
  | cons entry rest ih =>
    obtain ⟨block,old⟩ := entry
    simp only [List.map_cons,List.count_cons] at once
    by_cases same : block = source
    · subst same
      simp only [beq_self_eq_true,if_true] at once
      have absent : block ∉ rest.map Prod.fst := List.count_eq_zero.mp (by omega)
      have kept : rest.map (fun entry => if entry.1 = block then (block,value) else entry) = rest := by
        refine (List.map_congr_left fun entry member => if_neg ?_).trans (List.map_id rest)
        rintro rfl
        exact absent (List.mem_map_of_mem member)
      simp [setIncoming,kept]
    · simp only [beq_eq_false_iff_ne.mpr same,Bool.false_eq_true,if_false] at once
      simp [setIncoming,same,ih once]

theorem lookup_map_values {source : Nat} {entries : List (Nat × Value)} {update : Nat × Value → Nat × Value}
    (keys : ∀ entry, (update entry).1 = entry.1) {value : Value}
    (found : entries.lookup source = some value) :
    (entries.map update).lookup source = some (update (source,value)).2 := by
  induction entries with
  | nil => exact absurd found (by simp)
  | cons entry rest ih =>
    obtain ⟨block,old⟩ := entry
    by_cases same : block = source
    · subst same
      simp only [List.lookup_cons_self,Option.some.injEq] at found
      have head : update (block,old) = (block,(update (block,old)).2) := Prod.ext (keys _) rfl
      rw [List.map_cons,head,List.lookup_cons_self,found]
    · simp only [List.lookup_cons,beq_eq_false_iff_ne.mpr (Ne.symm same)] at found
      have head : update (block,old) = (block,(update (block,old)).2) := Prod.ext (keys _) rfl
      rw [List.map_cons,head,List.lookup_cons,beq_eq_false_iff_ne.mpr (Ne.symm same)]
      exact ih found

theorem exists_lookup {source : Nat} {entries : List (Nat × Value)}
    (member : source ∈ entries.map Prod.fst) :
    ∃ value, entries.lookup source = some value ∧ (source,value) ∈ entries := by
  cases found : entries.lookup source with
  | some value => exact ⟨value,rfl,mem_of_lookup found⟩
  | none =>
    obtain ⟨entry,member',rfl⟩ := List.mem_map.mp member
    exact absurd (List.lookup_eq_none_iff.mp found entry member') (by simp)

section
variable (function : Function) (tree : Tree function) (inserted : List (Name × List Nat))

def endPoint (b : Nat) : Point := .before b (((function.blocks[b]?).map (·.body.length)).getD 0)

noncomputable def renamedEntry (entry : Nat × Value) : Nat × Value :=
  (entry.1,rename (nearest function tree inserted (endPoint function entry.1)) entry.2)

noncomputable def renamedIncoming (entries : List (Nat × Value)) : List (Nat × Value) :=
  entries.map fun entry =>
    if entry.1 ∈ tree.preorder then renamedEntry function tree inserted entry else entry

noncomputable def translatedBody (b : Nat) (body : List (Name × Inst)) : List (List (Name × Inst)) :=
  body.mapIdx fun i entry =>
    translate (nearest function tree inserted (.before b i)) b i entry.1 entry.2

noncomputable def translatedCode (b : Nat) (block : BasicBlock) :
    List (List (Name × Inst)) × Terminator :=
  (translatedBody function tree inserted b block.body,
    translateTerminator (nearest function tree inserted (.before b block.body.length))
      block.terminator)

/-- The walk has nothing to stumble on: no constant operands, and where an edge is
double its PHI nodes take variables that keep their names. -/
structure Walkable : Prop where
  operands : ∀ b block, function.graph.Reachable b → function.blocks[b]? = some block →
    ∀ n inst, (n,inst) ∈ block.body → Inst.NoConstant inst
  incoming : ∀ b, function.graph.Reachable b → ∀ t ∈ function.successors b,
    ∀ phi ∈ collectionPhis function inserted t, ∀ k,
      (b,.constant k) ∉ initialIncoming function phi
  double : ∀ b, function.graph.Reachable b → ∀ t, 1 < (function.successors b).count t →
    ∀ phi ∈ collectionPhis function inserted t, ∀ value,
      (b,value) ∈ initialIncoming function phi →
        rename (nearest function tree inserted (endPoint function b)) value = value

end

theorem count_predecessors (function : Function) (s t : Nat) :
    (function.predecessors t).count s = (function.successors s).count t := by
  have edges : ∀ b, ((function.successors b).filter (· = t) |>.map fun _ => b).count s =
      if b = s then (function.successors s).count t else 0 := by
    intro b
    by_cases same : b = s
    · subst same
      rw [if_pos rfl,List.count_eq_length.mpr ?_]
      · rw [List.length_map,List.count_eq_length_filter]
        rfl
      · intro a member
        obtain ⟨_,_,rfl⟩ := List.mem_map.mp member
        rfl
    · rw [if_neg same]
      refine List.count_eq_zero.mpr fun member => ?_
      obtain ⟨_,_,rfl⟩ := List.mem_map.mp member
      exact same rfl
  have upto : ∀ n, ((List.range n).flatMap fun b =>
      (function.successors b).filter (· = t) |>.map fun _ => b).count s =
        if s < n then (function.successors s).count t else 0 := by
    intro n
    induction n with
    | zero => simp
    | succ n ih =>
      rw [List.range_succ,List.flatMap_append,List.count_append,ih]
      simp only [List.flatMap_cons,List.flatMap_nil,List.append_nil,edges]
      split_ifs <;> omega
  rw [Function.predecessors,upto]
  split_ifs with bound
  · rfl
  · have missing : function.blocks[s]? = none := List.getElem?_eq_none (by omega)
    simp [Function.successors,missing]

theorem mem_predecessors {function : Function} {s t : Nat} :
    s ∈ function.predecessors t ↔ t ∈ function.successors s := by
  rw [← List.count_pos_iff,← List.count_pos_iff,count_predecessors]

section
variable {program : Program} {tree : Tree program.function} {inserted : List (Name × List Nat)}

theorem mem_collectionPhis {t : Nat} {phi : Name} :
    phi ∈ collectionPhis program.function inserted t ↔
      (∃ block i entry, program.function.blocks[t]? = some block ∧ block.phis[i]? = some (phi,entry) ∧
        phi = .phi t i ∧ program.function.valueIsCollectionType phi = true) ∨
      ∃ x, phi = .insertedPhi t x ∧ x ∈ insertedAt inserted t := by
  unfold collectionPhis
  rw [List.mem_append,List.mem_filter]
  refine or_congr ?_ ?_
  · cases found : program.function.blocks[t]? with
    | none => simp
    | some block =>
      simp only [Option.map_some,Option.getD_some,Option.some.injEq]
      constructor
      · intro ⟨member,isCollection⟩
        obtain ⟨entry,member',rfl⟩ := List.mem_map.mp member
        obtain ⟨i,bound,at_⟩ := List.mem_iff_getElem.mp member'
        have at' := (List.getElem?_eq_getElem bound).trans (congrArg some at_)
        exact ⟨block,i,entry.2,rfl,at',program.phi_at found at',isCollection⟩
      · rintro ⟨_,i,entry,rfl,at_,_,isCollection⟩
        exact ⟨List.mem_map.mpr ⟨_,List.mem_of_getElem? at_,rfl⟩,isCollection⟩
  · simp only [List.mem_map]
    exact exists_congr fun x => and_comm.trans (and_congr_left fun _ => eq_comm)

theorem collectionPhis_block {t : Nat} {phi : Name}
    (member : phi ∈ collectionPhis program.function inserted t) :
    phi.block? = some t := by
  rcases mem_collectionPhis.mp member with ⟨_,_,_,_,_,rfl,_⟩ | ⟨_,rfl,_⟩ <;> rfl

theorem collectionPhis_nodup (placed : Placed program inserted) (t : Nat) :
    (collectionPhis program.function inserted t).Nodup := by
  unfold collectionPhis
  refine List.nodup_append.mpr ⟨List.Nodup.filter _ ?_,?_,?_⟩
  · cases found : program.function.blocks[t]? with
    | none => simp
    | some block =>
      simp only [Option.map_some,Option.getD_some,program.phis_named t block found]
      refine List.Nodup.map (fun i j same => ?_) List.nodup_range
      exact (Name.phi.inj same).2
  · refine List.Nodup.map (fun x y same => ?_) (placed.nodup t)
    exact (Name.insertedPhi.inj same).2
  · intro n member m member' same
    subst same
    obtain ⟨x,_,rfl⟩ := List.mem_map.mp member'
    cases found : program.function.blocks[t]? with
    | none => simp [found] at member
    | some block =>
      simp only [found,Option.map_some,Option.getD_some,List.mem_filter] at member
      obtain ⟨i,same⟩ := program.mem_phis found member.1
      exact absurd same (by simp)

theorem initialIncoming_phi {t i : Nat} {block : BasicBlock} {n : Name} {phi : Phi}
    (found : program.function.blocks[t]? = some block) (at_ : block.phis[i]? = some (n,phi)) :
    initialIncoming program.function (.phi t i) = Phi.collections phi := by
  simp [initialIncoming,found,at_]

/-- The entries of a collection PHI node are its incoming edges. -/
theorem initialIncoming_edges {t : Nat} {phi : Name}
    (member : phi ∈ collectionPhis program.function inserted t) :
    ((initialIncoming program.function phi).map Prod.fst).Perm
      (program.function.predecessors t) := by
  rcases mem_collectionPhis.mp member with ⟨block,i,entry,found,at_,rfl,isCollection⟩ | ⟨x,rfl,_⟩
  · rw [initialIncoming_phi found at_]
    have inPhis := List.mem_of_getElem? at_
    have types := program.phi_types block (List.mem_of_getElem? found) _ _ inPhis
    rw [isCollection] at types
    refine List.Perm.trans (.of_eq ?_) (program.incoming t block found _ _ inPhis)
    unfold Phi.collections
    generalize entry.incoming = edges at types
    induction edges with
    | nil => rfl
    | cons edge edges ih =>
      obtain ⟨value,is⟩ := Option.isSome_iff_exists.mp (types edge List.mem_cons_self)
      simp only [List.filterMap_cons,is,Option.map_some,List.map_cons]
      rw [ih fun edge member => types edge (List.mem_cons_of_mem _ member)]
  · refine .of_eq ?_
    simp [initialIncoming,Function.comp_def]

theorem mem_collections {phi : Phi} {source : Nat} {value : Value} :
    (source,value) ∈ Phi.collections phi ↔ (source,.collection value) ∈ phi.incoming := by
  simp only [Phi.collections,List.mem_filterMap,Option.map_eq_some_iff,Prod.mk.injEq]
  constructor
  · rintro ⟨⟨s,element⟩,member,v,is,rfl,rfl⟩
    cases element with
    | scalar s => exact absurd is (by simp [Element.collection?])
    | collection v =>
      obtain rfl := Option.some.inj is
      exact member
  · exact fun member => ⟨_,member,value,rfl,rfl,rfl⟩

theorem defined_position {x : Name} {b : Nat} {block : BasicBlock}
    (defined : program.function.Defined x) (at_ : x.block? = some b)
    (found : program.function.blocks[b]? = some block) : x.position ≤ block.body.length := by
  rcases defined with ⟨i,_,rfl⟩ | ⟨block',inBlocks,named⟩
  · exact Nat.zero_le _
  · obtain ⟨b',bound,rfl⟩ := List.mem_iff_getElem.mp inBlocks
    have found' := List.getElem?_eq_getElem bound
    have same := Option.some.inj ((program.names_block found' named).symm.trans at_)
    subst same
    obtain rfl := Option.some.inj (found'.symm.trans found)
    rcases List.mem_append.mp named with named | named
    · obtain ⟨i,rfl⟩ := program.mem_phis found named
      exact Nat.zero_le _
    · obtain ⟨i,bound,rfl⟩ := program.mem_body found named
      exact bound

theorem version_position {x w : Name} {b : Nat} {block : BasicBlock}
    (variable_ : x ∈ memoirNames program.function)
    (version : Version program.function inserted x w) (at_ : w.block? = some b)
    (found : program.function.blocks[b]? = some block) : w.position ≤ block.body.length := by
  cases version with
  | first =>
    rw [firstVersion_block] at at_
    obtain ⟨p,site',_,position⟩ := exists_site at_
    rw [(site_block ((firstVersion_site _ _).trans site')).2,position]
    exact defined_position (mem_memoirNames.mp variable_).2 at_ found
  | redefined instruction _ =>
    obtain rfl := Option.some.inj at_
    obtain ⟨block',n,found',entry⟩ := Function.instruction?_eq_some instruction
    obtain rfl := Option.some.inj (found'.symm.trans found)
    obtain ⟨bound,_⟩ := List.getElem?_eq_some_iff.mp entry
    exact bound
  | inserted _ => exact Nat.zero_le _

/-- A variable that a PHI node takes from a block dominates the end of it. -/
theorem ready_incoming (placed : Placed program inserted) {s t : Nat} {phi : Name} {x : Name}
    (member : phi ∈ collectionPhis program.function inserted t)
    (edge : t ∈ program.function.successors s) (reachable : program.function.graph.Reachable s)
    (entry : (s,.name x) ∈ initialIncoming program.function phi) :
    Ready program tree x (endPoint program.function s) := by
  obtain ⟨pred,found⟩ : ∃ pred, program.function.blocks[s]? = some pred := by
    unfold Function.successors at edge
    split at edge
    · exact ⟨_,by assumption⟩
    · exact absurd edge List.not_mem_nil
  have end_ : endPoint program.function s = .before s pred.body.length := by simp [endPoint,found]
  rw [end_]
  rcases mem_collectionPhis.mp member with ⟨block,i,node,found',at_,rfl,_⟩ | ⟨y,rfl,inserted_⟩
  · rw [initialIncoming_phi found' at_] at entry
    have incoming := mem_collections.mp entry
    have inBlocks := List.mem_of_getElem? found'
    have inPhis := List.mem_of_getElem? at_
    have usable := program.ssa.incoming block inBlocks _ _ inPhis s _ incoming pred found
    refine ready_of_dominates (mem_memoirNames.mpr ⟨?_,?_⟩)
      (program.available_dominates tree (usable.2 x rfl reachable))
    · exact (program.collections block inBlocks).2.2 _ _ inPhis s x incoming
    · exact (program.ssa.defined block inBlocks).2.2 _ _ inPhis _ incoming x rfl
  · simp only [initialIncoming,List.mem_map,Prod.mk.injEq,Value.name.injEq] at entry
    obtain ⟨_,_,_,rfl⟩ := entry
    have variable_ := placed.names t _ inserted_
    refine ready_of_dominates variable_ ?_
    cases at_ : y.block? with
    | none => exact dominates_argument tree at_ _
    | some b =>
      have above := ((placed.above t y inserted_).2 b at_).predecessor edge
      refine (dominates_iff tree at_ _).mpr ?_
      by_cases same : b = s
      · subst same
        exact .inl ⟨rfl,Nat.lt_succ_of_le
          (defined_position (mem_memoirNames.mp variable_).2 at_ found)⟩
      · exact .inr ⟨same,above⟩

theorem incoming_not_null {t : Nat} {phi : Name} {s : Nat}
    (member : phi ∈ collectionPhis program.function inserted t)
    (bound : s < program.function.blocks.length) :
    (s,.null) ∉ initialIncoming program.function phi := by
  intro entry
  rcases mem_collectionPhis.mp member with ⟨block,i,node,found,at_,rfl,_⟩ | ⟨y,rfl,_⟩
  · rw [initialIncoming_phi found at_] at entry
    exact (program.ssa.incoming block (List.mem_of_getElem? found) _ _ (List.mem_of_getElem? at_) s _
      (mem_collections.mp entry) _ (List.getElem?_eq_getElem bound)).1 rfl
  · simp [initialIncoming] at entry

variable (placed : Placed program inserted)
include placed

omit placed in
theorem chained_phis {b : Nat} {block : BasicBlock}
    (found : program.function.blocks[b]? = some block) {reaching : Reaching}
    (all : AllChained program tree inserted reaching (.phi b)) :
    ∀ phis : List (Name × Phi), phis ⊆ block.phis →
      AllChained program tree inserted
        (phis.foldl (fun reaching entry =>
          setReachingDefinition reaching (.name entry.1) (.name entry.1)) reaching) (.phi b) := by
  intro phis
  induction phis generalizing reaching with
  | nil => exact fun _ => all
  | cons entry rest ih =>
    intro subset
    refine ih (fun x variable_ => ?_) fun _ member => subset (List.mem_cons_of_mem _ member)
    obtain ⟨n,phi⟩ := entry
    obtain ⟨i,rfl⟩ := program.mem_phis found (List.mem_map_of_mem (subset List.mem_cons_self))
    refine (all x variable_).frame ?_ fun v new _ => lookup_set_ne ?_
    · by_cases same : x = .phi b i
      · subst same
        rw [lookup_set_self,(all _ variable_).unmet (not_early_site rfl)]
      · exact lookup_set_ne fun same' => same (Value.name.inj same')
    · rintro ⟨⟩
      exact new

omit placed in
theorem inserted_version {x y : Name} {b : Nat} (variable_ : y ∈ memoirNames program.function)
    (version : Version program.function inserted y (.insertedPhi b x)) :
    y = x ∧ x ∈ insertedAt inserted b := by
  generalize same : Name.insertedPhi b x = v at version
  cases version with
  | first =>
    refine absurd same fun same => ?_
    unfold firstVersion at same
    split at same
    · split_ifs at same
    · exact Program.not_isNew_variable variable_ (same ▸ trivial)
  | redefined _ _ => exact absurd same (by simp)
  | inserted member =>
    obtain ⟨rfl,rfl⟩ := Name.insertedPhi.inj same
    exact ⟨rfl,member⟩

omit placed in
theorem early_start {n : Name} {b : Nat} (early : Early tree n (.before b 0)) :
    Early tree n (.phi b) ∨ site n = some (.phi b) :=
  early.before_next rfl rfl

/-- What the walk meets between the PHI nodes and the first instruction. -/
theorem chained_start {b : Nat} {reaching : Reaching} {x : Name}
    (variable_ : x ∈ memoirNames program.function) (absent : x ∉ insertedAt inserted b)
    (chained : Chained tree inserted reaching x (.phi b)) :
    Chained tree inserted reaching x (.before b 0) := by
  by_cases here : site x = some (.phi b)
  · refine Chained.define placed variable_ here ?_ ?_ fun w _ => early_start
    · have first : firstVersion program.function x = x := by
        cases x <;> simp_all [firstVersion,site]
      rw [first]
      refine chained.unmet (not_early_site ?_)
      rw [first,here]
    · intro s at_
      rw [(site_block here).1] at at_
      obtain rfl := Option.some.inj at_
      exact .inr ⟨rfl,by rw [(site_block here).2]; exact Nat.zero_lt_one⟩
  · refine chained.advance (.inr ⟨rfl,Nat.zero_le _⟩) fun w version early => ?_
    refine (early_start early).resolve_right fun at_ => ?_
    cases version with
    | first => exact here ((firstVersion_site _ _).symm.trans at_)
    | redefined _ _ => exact absurd at_ (by simp [site])
    | inserted member =>
      simp only [site,Option.some.injEq,Point.phi.injEq] at at_
      exact absent (at_ ▸ member)

theorem visitInsertedPhis_spec {b : Nat} (reachable : program.function.graph.Reachable b)
    (rest : List Name) : ∀ reaching, rest.Nodup → (∀ x ∈ rest, x ∈ insertedAt inserted b) →
      (∀ x ∈ memoirNames program.function,
        Chained tree inserted reaching x (if x ∈ rest then .phi b else .before b 0)) →
      ∃ after, visitInsertedPhis tree b reaching rest = some after ∧
        AllChained program tree inserted after (.before b 0) := by
  induction rest with
  | nil => exact fun reaching _ _ all => ⟨reaching,rfl,fun x variable_ => by simpa using all x variable_⟩
  | cons x rest ih =>
    intro reaching nodup subset all
    obtain ⟨absent,nodup⟩ := List.nodup_cons.mp nodup
    have member := subset x List.mem_cons_self
    have variable_ := placed.names b x member
    obtain ⟨_,above⟩ := placed.above b x member
    have here : program.function.graph.Reachable (Point.phi b).block := reachable
    have ready : Ready program tree x (.phi b) := by
      refine ready_of_dominates variable_ ?_
      cases at_ : x.block? with
      | none => exact dominates_argument tree at_ _
      | some s => exact (dominates_iff tree at_ _).mpr (.inr ⟨(above s at_).2,(above s at_).1⟩)
    have chained : Chained tree inserted reaching x (.phi b) := by simpa using all x variable_
    obtain ⟨found,isNearest,chained⟩ := update_chained placed reachable rfl ready chained
    have old := Program.not_isNew_variable variable_
    have apart : Value.name x ≠ .name (.insertedPhi b x) := by
      intro same
      rw [Value.name.inj same] at old
      exact old trivial
    have elsewhere : x.block? ≠ some b := fun at_ => (above b at_).2 rfl
    have next : ∀ y ∈ memoirNames program.function, Chained tree inserted
        (setReachingDefinition (setReachingDefinition (setReachingDefinition reaching (.name x)
          (.name (nearest program.function tree inserted (.phi b) x))) (.name x)
            (.name (.insertedPhi b x))) (.name (.insertedPhi b x))
              (.name (nearest program.function tree inserted (.phi b) x)))
        y (if y ∈ rest then .phi b else .before b 0) := by
      intro y variable_'
      by_cases same : y = x
      · subst same
        rw [if_neg absent]
        refine chained.redefine placed variable_ here (.inserted member) rfl isNearest ?_
          (lookup_set_self _ _ _) ?_ (.inr ⟨rfl,Nat.zero_le _⟩) ?_ ?_
        · rw [lookup_set_ne apart,lookup_set_self]
        · intro w new _ apart'
          rw [lookup_set_ne fun same => apart' (Value.name.inj same),lookup_set_ne]
          rintro ⟨⟩
          exact old new
        · exact fun s at_ => .inr ⟨Option.some.inj at_.symm,Nat.zero_lt_one⟩
        · intro w version early
          refine (early_start early).imp id fun at_ => ?_
          cases version with
          | first =>
            rw [firstVersion_site] at at_
            exact absurd (site_block at_).1 elsewhere
          | redefined _ _ => exact absurd at_ (by simp [site])
          | inserted member' =>
            simp only [site,Option.some.injEq,Point.phi.injEq] at at_
            rw [at_]
      · have chained' := all y variable_'
        simp only [List.mem_cons,same,false_or] at chained'
        refine (chained_set variable_ same (chained_set variable_ same chained')).frame
          (lookup_set_ne ?_) fun v new version => lookup_set_ne ?_
        · rintro ⟨⟩
          exact Program.not_isNew_variable variable_' trivial
        · rintro ⟨⟩
          exact same (inserted_version variable_' version).1
    obtain ⟨after,visited,all⟩ :=
      ih _ nodup (fun y member => subset y (List.mem_cons_of_mem _ member)) next
    refine ⟨after,?_,all⟩
    simp only [visitInsertedPhis,visitInsertedPhi,found,Option.bind_eq_bind,Option.bind_some,
      Option.pure_def]
    exact visited

end

end Memoir.Construction
