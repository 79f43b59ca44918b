import Memoir.SearchesEnd
import Memoir.RenamingWalk
import Memoir.Verifier

/-! The run of SSA construction with UsePHIs or without: its searches end, as long as no has is reached
by a version of its object. -/
namespace Memoir.UsePhis
open Construction Dominance

section
variable {program : Program} {tree : Tree program.function} {x : Name} {usePhis : Bool}

structure Chosen (tree : Tree program.function) (x : Name) (b : Nat) : Prop where
  frontier : ∃ a,program.function.graph.InFrontier a b
  unskipped : ¬ Skipped tree x b

theorem insertPhis_chosen {fuel : Nat} : ∀ {worklist parents result : List Nat},
    insertPhis tree x fuel worklist parents = some result → parents.Nodup →
    (∀ b ∈ parents,Chosen tree x b) →
    (∀ a ∈ worklist,program.function.graph.Reachable a) ∧ result.Nodup ∧
      ∀ b ∈ result,Chosen tree x b := by
  induction fuel with
  | zero =>
    intro worklist parents result ran nodup chosen
    cases worklist with
    | nil =>
      obtain rfl := Option.some.inj ran
      exact ⟨fun _ none => absurd none List.not_mem_nil,nodup,chosen⟩
    | cons a rest => exact absurd ran (by simp [insertPhis])
  | succ fuel ih =>
    intro worklist parents result ran nodup chosen
    cases worklist with
    | nil =>
      obtain rfl := Option.some.inj ran
      exact ⟨fun _ none => absurd none List.not_mem_nil,nodup,chosen⟩
    | cons a rest =>
      simp only [insertPhis,Option.bind_eq_bind,Option.bind_eq_some_iff] at ran
      obtain ⟨frontier,isFrontier,ran⟩ := ran
      have here := (tree.frontier_reachable a).mp (by simp [isFrontier])
      obtain ⟨new,visited,chosen',nodup',_⟩ := visitFrontier_spec tree x frontier rest parents nodup
      rw [visited] at ran
      have all : ∀ b ∈ parents ++ new,Chosen tree x b := by
        intro b member
        rcases List.mem_append.mp member with member | member
        · exact chosen b member
        · obtain ⟨inFrontier,unskipped⟩ := chosen' b member
          exact ⟨⟨a,(tree.frontier_iff a frontier isFrontier b).mp inFrontier⟩,unskipped⟩
      obtain ⟨reachable,nodup,chosen⟩ := ih ran nodup' all
      refine ⟨fun b member => ?_,nodup,chosen⟩
      rcases List.mem_cons.mp member with rfl | member
      · exact here
      · exact reachable b (List.mem_append_left new member)

/-- The variable is defined above the block. -/
theorem Chosen.above {b : Nat} (chosen : Chosen tree x b) :
    program.function.graph.Reachable b ∧
      ∀ s,x.block? = some s → program.function.graph.StrictlyDominates s b := by
  obtain ⟨a,frontier⟩ := chosen.frontier
  obtain ⟨_,entry,reached⟩ := frontier_block frontier
  refine ⟨reached,fun s block => ?_⟩
  exact strictlyDominates_of_not_skipped entry reached chosen.unskipped block

theorem mapM_pairs {α β : Type} {find : α → Option β} {items : List α} :
    ∀ {pairs : List (α × β)},(items.mapM fun item => do return (item,← find item)) = some pairs →
      pairs.map Prod.fst = items ∧ ∀ pair ∈ pairs,find pair.1 = some pair.2 := by
  induction items with
  | nil =>
    intro pairs ran
    obtain rfl := Option.some.inj ran
    exact ⟨rfl,fun _ none => absurd none List.not_mem_nil⟩
  | cons item items ih =>
    intro pairs ran
    simp only [List.mapM_cons,Option.bind_eq_bind,Option.bind_eq_some_iff,Option.pure_def,
      Option.some.injEq] at ran
    obtain ⟨_,⟨result,found,rfl⟩,rest,ran,rfl⟩ := ran
    obtain ⟨keys,all⟩ := ih ran
    refine ⟨congrArg (item :: ·) keys,fun pair member => ?_⟩
    rcases List.mem_cons.mp member with rfl | member
    · exact found
    · exact all pair member

theorem placed_insertedPhis {inserted : List (Name × List Nat)}
    (placed : insertedPhis usePhis tree = some inserted) : Placed program inserted := by
  obtain ⟨keys,found⟩ := mapM_pairs placed
  have entry : ∀ {b x},x ∈ insertedAt inserted b → ∃ parents,(x,parents) ∈ inserted ∧ b ∈ parents := by
    intro b x member
    obtain ⟨⟨_,parents⟩,isEntry,rfl⟩ := List.mem_map.mp member
    obtain ⟨isEntry,parent⟩ := List.mem_filter.mp isEntry
    exact ⟨parents,isEntry,of_decide_eq_true parent⟩
  have spec : ∀ {x parents},(x,parents) ∈ inserted →
      (∀ a ∈ definitionParents usePhis program.function x,program.function.graph.Reachable a) ∧
        parents.Nodup ∧ ∀ b ∈ parents,Chosen tree x b := fun member =>
    insertPhis_chosen (found _ member) List.nodup_nil fun _ none => absurd none List.not_mem_nil
  refine ⟨?_,?_,?_,?_⟩
  · intro x variable_ b member
    rw [← keys] at variable_
    obtain ⟨⟨x,parents⟩,member',rfl⟩ := List.mem_map.mp variable_
    apply (spec member').1
    rcases List.mem_append.mp member with member | member
    · exact List.mem_append_left _ member
    · apply List.mem_append_right
      obtain ⟨bound,defined⟩ := List.mem_filter.mp member
      refine List.mem_filter.mpr ⟨bound,?_⟩
      cases at_ : program.function.blocks[b]? with
      | none =>
        rw [at_] at defined
        exact absurd defined (by simp)
      | some block =>
        simp only [at_,Option.map_some,Option.getD_some,List.any_eq_true] at defined ⊢
        obtain ⟨entry,member,defines⟩ := defined
        exact ⟨entry,member,by simp [UsePhis.defines,defines]⟩
  · intro b x member
    obtain ⟨parents,member,_⟩ := entry member
    rw [← keys]
    exact List.mem_map_of_mem member
  · intro b x member
    obtain ⟨parents,member,parent⟩ := entry member
    exact ((spec member).2.2 b parent).above
  · intro b
    have sublist : (insertedAt inserted b).Sublist (inserted.map Prod.fst) :=
      List.filter_sublist.map Prod.fst
    rw [keys] at sublist
    exact (memoirNames_nodup program).sublist sublist

end

section
variable {program : Program} {tree : Tree program.function} {inserted : List (Name × List Nat)}
  {usePhis : Bool}

theorem owner_defined {n : Name} (defined : program.function.Defined n) :
    owner program.function n = none := by
  have isOld := Program.not_isNew program defined
  cases n with
  | ssa _ _ _ | insertedPhi _ _ => exact absurd trivial isOld
  | _ => rfl

theorem variable_operand {b i : Nat} {inst : Inst}
    (at_ : program.function.instruction? (.inst b i) = some inst) {operand : Value}
    (member : operand ∈ inst.operands) : Variable program.function operand := by
  rintro n rfl
  exact owner_defined (mem_memoirNames.mp (operand_variable at_ member)).2

theorem variable_returned {block : BasicBlock} (inBlocks : block ∈ program.function.blocks)
    {operand : Value} (member : operand ∈ block.terminator.operands) :
    Variable program.function operand := by
  rintro n rfl
  exact owner_defined (mem_memoirNames.mp (terminator_variable inBlocks member)).2

/-- What a visit of the program reads. -/
def Proper (program : Program) (inserted : List (Name × List Nat)) : Visit → Prop
  | .phi n | .insertedPhi _ n => owner program.function n = none
  | .inst block i n inst => n = .inst block i ∧
    program.function.instruction? (.inst block i) = some inst ∧
    ∀ operand ∈ inst.operands,Variable program.function operand
  | .terminator _ _ terminator => ∀ operand ∈ terminator.operands,Variable program.function operand
  | .successorPhi source last phi => ∃ pred target,program.function.blocks[source]? = some pred ∧
    last = pred.body.length ∧ program.function.graph.Reachable source ∧
    target ∈ program.function.successors source ∧ phi ∈ collectionPhis program.function inserted target

theorem proper_visits (placed : Placed program inserted) :
    ∀ visit ∈ visits tree inserted,Proper program inserted visit := by
  intro visit member
  obtain ⟨b,isVisited,member⟩ := List.mem_flatMap.mp member
  have reachable := (tree.preorder_reachable b).mp isVisited
  cases found : program.function.blocks[b]? with
  | none => exact absurd member (by simp [blockVisits,found])
  | some block =>
    have isBlock := List.mem_of_getElem? found
    simp only [blockVisits,found,List.mem_append,List.mem_cons,List.mem_flatMap] at member
    rcases member with ((member | member) | member) | rfl | ⟨target,edge,member⟩
    · obtain ⟨entry,isPhi,rfl⟩ := List.mem_map.mp member
      exact owner_defined (.inr ⟨block,isBlock,List.mem_append_left _ (List.mem_map_of_mem isPhi)⟩)
    · obtain ⟨named,isInserted,rfl⟩ := List.mem_map.mp member
      exact owner_defined (mem_memoirNames.mp (placed.names b named isInserted)).2
    · obtain ⟨i,bound,rfl⟩ := List.mem_mapIdx.mp member
      have entry := List.getElem?_eq_getElem bound
      have at_ := Function.instruction?_eq found entry
      exact ⟨program.name_at found entry,at_,fun operand => variable_operand at_⟩
    · exact fun operand => variable_returned isBlock
    · obtain ⟨phi,isPhi,rfl⟩ := List.mem_map.mp member
      exact ⟨block,target,found,rfl,reachable,edge,isPhi⟩

def maker : Visit → Option Name
  | .insertedPhi block named => some (.insertedPhi block named)
  | .inst block i _ _ => some (.inst block i)
  | _ => none

def makerOf : Name → Option Name
  | .insertedPhi block named => some (.insertedPhi block named)
  | .ssa block i _ => some (.inst block i)
  | _ => none

def Makes (visit : Visit) (n : Name) : Prop := ∃ site,maker visit = some site ∧ makerOf n = some site

theorem makers_block (b : Nat) : (blockVisits program.function inserted b).filterMap maker =
    match program.function.blocks[b]? with
    | none => []
    | some block => (insertedAt inserted b).map (.insertedPhi b) ++
      (List.range block.body.length).map (.inst b) := by
  cases found : program.function.blocks[b]? with
  | none => simp [blockVisits,found]
  | some block =>
    have phis : (block.phis.map fun entry => Visit.phi entry.1).filterMap maker = [] := by
      simp [List.filterMap_map,maker]
    have successors : ((program.function.successors b).flatMap fun successor =>
        (collectionPhis program.function inserted successor).map
          (Visit.successorPhi b block.body.length)).filterMap maker = [] := by
      rw [List.filterMap_eq_nil_iff]
      intro visit member
      obtain ⟨_,_,member⟩ := List.mem_flatMap.mp member
      obtain ⟨_,_,rfl⟩ := List.mem_map.mp member
      rfl
    have merged : ((insertedAt inserted b).map (Visit.insertedPhi b)).filterMap maker =
        (insertedAt inserted b).map (.insertedPhi b) := by
      rw [List.filterMap_map]
      exact List.filterMap_eq_map_iff_forall_eq_some.mpr fun _ _ => rfl
    have body : (block.body.mapIdx fun i entry => Visit.inst b i entry.1 entry.2).filterMap maker =
        (List.range block.body.length).map (.inst b) := by
      have all : ∀ visit ∈ block.body.mapIdx fun i entry => Visit.inst b i entry.1 entry.2,
          maker visit = some ((maker visit).getD (.argument 0)) := by
        intro visit member
        obtain ⟨_,_,rfl⟩ := List.mem_mapIdx.mp member
        rfl
      rw [List.filterMap_eq_map_iff_forall_eq_some.mpr all]
      apply List.ext_getElem (by simp)
      intro i _ _
      simp [maker]
    simp only [blockVisits,found,List.filterMap_append,phis,merged,body,List.filterMap_cons,maker,
      successors,List.nil_append,List.append_nil]

theorem distinct_visits (placed : Placed program inserted) : (visits tree inserted).Pairwise
    fun visit later => ∀ n,Makes visit n → ¬ Makes later n := by
  have nodup : ((visits tree inserted).filterMap maker).Nodup := by
    rw [visits,List.filterMap_flatMap]
    refine List.nodup_flatMap.mpr ⟨fun b _ => ?_,tree.preorder_nodup.imp ?_⟩
    · rw [makers_block]
      cases found : program.function.blocks[b]? with
      | none => exact List.nodup_nil
      | some block =>
        refine List.nodup_append.mpr ⟨?_,?_,?_⟩
        · exact (placed.nodup b).map fun x y same => (Name.insertedPhi.inj same).2
        · exact List.nodup_range.map fun i j same => (Name.inst.inj same).2
        · intro n member m member' same
          obtain ⟨_,_,rfl⟩ := List.mem_map.mp member
          obtain ⟨_,_,rfl⟩ := List.mem_map.mp member'
          exact absurd same (by simp)
    · intro b c apart n member member'
      have at_ : ∀ {b : Nat},n ∈ (blockVisits program.function inserted b).filterMap maker →
          n.block? = some b := by
        intro b member
        rw [makers_block] at member
        cases found : program.function.blocks[b]? with
        | none =>
          rw [found] at member
          exact absurd member List.not_mem_nil
        | some block =>
          rw [found] at member
          rcases List.mem_append.mp member with member | member
          · obtain ⟨_,_,rfl⟩ := List.mem_map.mp member
            rfl
          · obtain ⟨_,_,rfl⟩ := List.mem_map.mp member
            rfl
      exact apart (Option.some.inj ((at_ member).symm.trans (at_ member')))
  apply (List.pairwise_filterMap.mp nodup).imp
  rintro visit later apart n ⟨site,isMaker,isSite⟩ ⟨site',isMaker',isSite'⟩
  exact apart site isMaker site' isMaker' (Option.some.inj (isSite.symm.trans isSite'))

end

section
variable {program : Program} {tree : Tree program.function} {inserted : List (Name × List Nat)}
  {usePhis : Bool} {reaching after : Reaching} {state : State} {rest : List Visit} {visit : Visit}
  {makes : Name → Prop} {source : Nat} {value : Value}

structure Edge (tree : Tree program.function) (reaching : Reaching) (source : Nat)
    (named value : Value) : Prop where
  isVariable : Variable program.function named
  scope : ∀ n,named = .name n → ∀ pred,program.function.blocks[source]? = some pred →
    program.function.graph.Reachable source → dominates tree n (.before source pred.body.length)
  stands : value = named ∨ Found program.function reaching (fun _ => true) named value

theorem Edge.mono {named : Value} (edge : Edge tree reaching source named value)
    (kept : ∀ n,Mentioned reaching n → Mentioned after n) : Edge tree after source named value :=
  ⟨edge.isVariable,edge.scope,edge.stands.imp_right fun found => found.mono kept⟩

theorem Found.visible {function : Function} {visible : Name → Bool} {definition : Value}
    (found : Found function reaching visible value definition) :
    Found function reaching (fun _ => true) value definition := by
  cases found with
  | null => exact .null
  | itself same => exact .itself same
  | version made mentioned _ => exact .version made mentioned rfl

/-- The search for what an entry holds, at the end of the block where its edge starts. -/
theorem Edge.search {named : Value} {pred : BasicBlock} (edge : Edge tree reaching source named value)
    (sound : Sound program.function reaching) (found : program.function.blocks[source]? = some pred)
    (reachable : program.function.graph.Reachable source) :
    ∃ definition,updateReachingDefinition tree reaching value (.before source pred.body.length) =
        some (setReachingDefinition reaching value definition,definition) ∧
      Adds program.function makes reaching (setReachingDefinition reaching value definition) ∧
      ∃ named,Edge tree (setReachingDefinition reaching value definition) source named definition := by
  have variable_ : ∀ {value : Value},Variable program.function value →
      (∀ n,value = .name n → dominates tree n (.before source pred.body.length)) →
      ∃ definition,updateReachingDefinition tree reaching value (.before source pred.body.length) =
          some (setReachingDefinition reaching value definition,definition) ∧
        Adds program.function makes reaching (setReachingDefinition reaching value definition) ∧
        ∃ named,Edge tree (setReachingDefinition reaching value definition) source named definition := by
    intro value isVariable scope
    obtain ⟨definition,searched,isFound,adds⟩ :=
      (Adds.refl sound : Adds program.function makes reaching reaching).search tree isVariable
        (.before source pred.body.length)
    refine ⟨definition,searched,adds,value,isVariable,?_,.inr isFound.visible⟩
    intro n same other isBlock _
    obtain rfl := Option.some.inj (found.symm.trans isBlock)
    exact scope n same
  have scope : ∀ n,named = .name n → dominates tree n (.before source pred.body.length) :=
    fun n same => edge.scope n same pred found reachable
  rcases edge.stands with rfl | isFound
  · exact variable_ edge.isVariable scope
  · cases isFound with
    | null => exact variable_ (fun n same => absurd same (by simp)) fun n same => absurd same (by simp)
    | itself same => exact variable_ (same ▸ edge.isVariable) (same ▸ scope)
    | @version w made mentioned _ =>
      obtain ⟨age,now,dated⟩ := sound
      obtain ⟨definition,chased,finds⟩ :=
        chase_version (dominates tree · (.before source pred.body.length)) (.name w) dated
          (fun n same => .inl (scope n same)) made
          (Nat.lt_succ_of_le (upTo_le_length (age w)))
      have searched : updateReachingDefinition tree reaching (.name w)
          (.before source pred.body.length) =
            some (setReachingDefinition reaching (.name w) definition,definition) := by
        rw [updateReachingDefinition,chased]
        rfl
      have adds : Adds program.function makes reaching
          (setReachingDefinition reaching (.name w) definition) :=
        .again dated edge.isVariable made mentioned finds
      refine ⟨definition,searched,adds,named,edge.isVariable,edge.scope,.inr ?_⟩
      cases finds with
      | null => exact .null
      | back same => exact .itself same
      | version made' _ earlier _ => exact .version made' (adds.kept _ earlier) rfl

theorem setIncoming_sources (source : Nat) (value : Value) (entries : List (Nat × Value)) :
    (setIncoming source value entries).map Prod.fst = entries.map Prod.fst := by
  induction entries with
  | nil => rfl
  | cons entry entries ih =>
    rw [setIncoming]
    split
    · rename_i same
      rw [List.map_cons,List.map_cons,same]
    · rw [List.map_cons,List.map_cons,ih]

theorem mem_setIncoming {entries : List (Nat × Value)} {entry : Nat × Value}
    (member : entry ∈ setIncoming source value entries) : entry = (source,value) ∨ entry ∈ entries := by
  induction entries with
  | nil => exact absurd member List.not_mem_nil
  | cons first entries ih =>
    rw [setIncoming] at member
    split at member
    · rename_i same
      rcases List.mem_cons.mp member with rfl | member
      · exact .inl (by rw [same])
      · exact .inr (List.mem_cons_of_mem first member)
    · rcases List.mem_cons.mp member with rfl | member
      · exact .inr List.mem_cons_self
      · exact (ih member).imp_right (List.mem_cons_of_mem first)

/-- With UsePHIs, no version of the object of a has that was made dominates the has. -/
def Plain (usePhis : Bool) (tree : Tree program.function) (state : State) : Visit → Prop
  | .inst block i _ (.assocHas object _) => usePhis → ∀ n,owner program.function n = some object →
    Mentioned state.reaching n → dominates tree n (.before block i) = false
  | _ => True

structure Keeps (tree : Tree program.function) (inserted : List (Name × List Nat)) (state : State)
    (rest : List Visit) : Prop where
  sound : Sound program.function state.reaching
  new : ∀ visit ∈ rest,∀ n,owner program.function n ≠ none → Makes visit n →
    ¬ Mentioned state.reaching n
  sources : ∀ target,∀ phi ∈ collectionPhis program.function inserted target,
    (state.incoming phi).map Prod.fst = (initialIncoming program.function phi).map Prod.fst
  edges : ∀ target,∀ phi ∈ collectionPhis program.function inserted target,
    ∀ entry ∈ state.incoming phi,∃ named,Edge tree state.reaching entry.1 named entry.2
  proper : ∀ visit ∈ rest,Proper program inserted visit
  distinct : rest.Pairwise fun visit later => ∀ n,Makes visit n → ¬ Makes later n

theorem Keeps.adds (keeps : Keeps tree inserted state (visit :: rest))
    (adds : Adds program.function (Makes visit) state.reaching after) :
    Keeps tree inserted ⟨after,state.incoming⟩ rest := by
  obtain ⟨apart,distinct⟩ := List.pairwise_cons.mp keeps.distinct
  refine ⟨adds.sound,?_,keeps.sources,?_,fun later member =>
    keeps.proper later (List.mem_cons_of_mem visit member),distinct⟩
  · intro later member n isVersion makes mentioned
    rcases adds.made n isVersion mentioned with mentioned | made
    · exact keeps.new later (List.mem_cons_of_mem visit member) n isVersion makes mentioned
    · exact apart later member n made makes
  · intro target phi isPhi entry member
    obtain ⟨named,edge⟩ := keeps.edges target phi isPhi entry member
    exact ⟨named,edge.mono adds.kept⟩

theorem perform_instruction {block i : Nat} {n : Name} {inst : Inst}
    (keeps : Keeps tree inserted state (.inst block i n inst :: rest))
    (plain : Plain usePhis tree state (.inst block i n inst)) :
    ∃ after,perform usePhis tree state (.inst block i n inst) = some after ∧
      Keeps tree inserted after rest := by
  obtain ⟨rfl,at_,originals⟩ := keeps.proper _ List.mem_cons_self
  have new : ∀ k,owner program.function (.ssa block i k) ≠ none →
      ¬ Mentioned state.reaching (.ssa block i k) := fun k isVersion =>
    keeps.new _ List.mem_cons_self _ isVersion ⟨.inst block i,rfl,rfl⟩
  have isPlain : ∀ object key,inst = .assocHas object key → usePhis → ∀ n,
      owner program.function n = some object → Mentioned state.reaching n →
      dominates tree n (.before block i) = false := by
    rintro object key rfl
    exact plain
  obtain ⟨after,ran,adds⟩ := ran_visit keeps.sound new usePhis at_ originals isPlain
  refine ⟨⟨after,state.incoming⟩,?_,keeps.adds (adds.weaken ?_)⟩
  · rw [perform,ran]
    rfl
  · rintro _ ⟨k,rfl⟩
    exact ⟨.inst block i,rfl,rfl⟩

theorem perform_insertedPhi {block : Nat} {named : Name}
    (keeps : Keeps tree inserted state (.insertedPhi block named :: rest)) :
    ∃ after,perform usePhis tree state (.insertedPhi block named) = some after ∧
      Keeps tree inserted after rest := by
  have isVariable : Variable program.function (.name named) := by
    intro n same
    obtain rfl := Value.name.inj same
    exact keeps.proper _ List.mem_cons_self
  have new : ¬ Mentioned state.reaching (.insertedPhi block named) :=
    keeps.new _ List.mem_cons_self _ (by simp [owner]) ⟨.insertedPhi block named,rfl,rfl⟩
  have adds : Adds program.function (fun _ => False) state.reaching state.reaching :=
    .refl keeps.sound
  obtain ⟨definition,searched,found,adds⟩ := adds.search tree isVariable (.phi block)
  have adds := adds.remake isVariable rfl new id found
  refine ⟨⟨_,state.incoming⟩,?_,keeps.adds (adds.weaken ?_)⟩
  · simp only [perform,visitInsertedPhi,searched,Option.bind_eq_bind,Option.bind_some]
    rfl
  · rintro n made
    obtain rfl := made.resolve_left id
    exact ⟨.insertedPhi block named,rfl,rfl⟩

theorem perform_successorPhi {last : Nat} {phi : Name}
    (keeps : Keeps tree inserted state (.successorPhi source last phi :: rest)) :
    ∃ after,perform usePhis tree state (.successorPhi source last phi) = some after ∧
      Keeps tree inserted after rest := by
  obtain ⟨pred,target,found,rfl,reachable,edge,isPhi⟩ := keeps.proper _ List.mem_cons_self
  have isSource : source ∈ (state.incoming phi).map Prod.fst := by
    rw [keeps.sources target phi isPhi]
    exact (initialIncoming_edges isPhi).mem_iff.mpr (mem_predecessors.mpr edge)
  obtain ⟨value,held,_⟩ := exists_lookup isSource
  obtain ⟨named,isEdge⟩ := keeps.edges target phi isPhi _ (mem_of_lookup held)
  obtain ⟨definition,searched,adds,named',isEdge'⟩ := isEdge.search keeps.sound found reachable
  have next := keeps.adds adds
  refine ⟨⟨_,Function.update state.incoming phi
    (setIncoming source definition (state.incoming phi))⟩,?_,next.sound,next.new,?_,?_,next.proper,
    next.distinct⟩
  · simp only [perform,held,Option.bind_eq_bind,Option.bind_some,searched]
    rfl
  · intro target' phi' isPhi'
    dsimp only
    by_cases same : phi' = phi
    · subst same
      rw [Function.update_self,setIncoming_sources]
      exact keeps.sources target' phi' isPhi'
    · rw [Function.update_of_ne same]
      exact keeps.sources target' phi' isPhi'
  · intro target' phi' isPhi' entry member
    dsimp only at member
    by_cases same : phi' = phi
    · subst same
      rw [Function.update_self] at member
      rcases mem_setIncoming member with rfl | member
      · exact ⟨named',isEdge'⟩
      · exact next.edges target' phi' isPhi' entry member
    · rw [Function.update_of_ne same] at member
      exact next.edges target' phi' isPhi' entry member

/-- Every visit ends. -/
theorem Keeps.step (keeps : Keeps tree inserted state (visit :: rest))
    (plain : Plain usePhis tree state visit) :
    ∃ after,perform usePhis tree state visit = some after ∧ Keeps tree inserted after rest := by
  cases visit with
  | phi n =>
    have isVariable : Variable program.function (.name n) := by
      intro m same
      obtain rfl := Value.name.inj same
      exact keeps.proper _ List.mem_cons_self
    exact ⟨_,rfl,keeps.adds (.found keeps.sound isVariable
      (.itself rfl : Found program.function state.reaching (fun _ => true) _ _))⟩
  | insertedPhi block named => exact perform_insertedPhi keeps
  | inst block i n inst => exact perform_instruction keeps plain
  | terminator block last terminator =>
    have originals := keeps.proper _ List.mem_cons_self
    obtain ⟨after,ran,adds⟩ : Ran program.function (Makes (.terminator block last terminator))
        state.reaching ((visitTerminator tree state.reaching block last terminator).map Prod.fst) := by
      rcases terminator with (_ | _ | value) | _
      · exact ⟨state.reaching,rfl,.refl keeps.sound⟩
      · exact ⟨state.reaching,rfl,.refl keeps.sound⟩
      · obtain ⟨after,ran,adds⟩ :=
          ran_renameOperands keeps.sound _ tree (.before block last) originals
        obtain ⟨result,renamed,rfl⟩ := Option.map_eq_some_iff.mp ran
        refine ⟨result.1,?_,adds⟩
        simp only [visitTerminator,Terminator.operands,Option.bind,Element.collection?,
          Option.toList] at renamed ⊢
        rw [renamed]
        rfl
      · exact ⟨state.reaching,rfl,.refl keeps.sound⟩
    obtain ⟨result,visited,rfl⟩ := Option.map_eq_some_iff.mp ran
    refine ⟨⟨result.1,state.incoming⟩,?_,keeps.adds adds⟩
    simp only [perform,visited,Option.bind_eq_bind,Option.bind_some]
    rfl
  | successorPhi source last phi => exact perform_successorPhi keeps

theorem dominates_of_first {x : Name} {point : Point}
    (first : dominates tree (firstVersion program.function x) point = true) :
    dominates tree x point = true := by
  cases block : x.block? with
  | none => exact dominates_argument tree block point
  | some s =>
    obtain ⟨q,at_,_,_⟩ := exists_site block
    have position := (site_block ((firstVersion_site program.function x).trans at_)).2.trans
      (site_block at_).2.symm
    rw [dominates_iff tree ((firstVersion_block _ _).trans block),position] at first
    exact (dominates_iff tree block point).mpr first

/-- The entries of PHI nodes hold variables of the program before the walk. -/
theorem initial_edge (placed : Placed program inserted) {target : Nat} {phi : Name}
    (isPhi : phi ∈ collectionPhis program.function inserted target) {entry : Nat × Value}
    (member : entry ∈ initialIncoming program.function phi) :
    Edge tree reaching entry.1 entry.2 entry.2 := by
  obtain ⟨source,value⟩ := entry
  have isSource : source ∈ (initialIncoming program.function phi).map Prod.fst :=
    List.mem_map_of_mem member
  have edge := mem_predecessors.mp ((initialIncoming_edges isPhi).mem_iff.mp isSource)
  refine ⟨?_,?_,.inl rfl⟩
  · rintro n rfl
    apply owner_defined
    rcases mem_collectionPhis.mp isPhi with ⟨block,i,node,found,at_,rfl,_⟩ | ⟨y,rfl,isInserted⟩
    · rw [initialIncoming_phi found at_] at member
      exact (program.ssa.defined block (List.mem_of_getElem? found)).2.2 _ _ (List.mem_of_getElem? at_) _
        (mem_collections.mp member) n rfl
    · obtain ⟨_,_,same⟩ := List.mem_map.mp member
      obtain rfl := Value.name.inj (Prod.mk.inj same).2
      exact (mem_memoirNames.mp (placed.names target _ isInserted)).2
  · rintro n rfl pred found reachable
    have ready : Ready program tree n (endPoint program.function source) :=
      ready_incoming placed isPhi edge reachable member
    have end_ : endPoint program.function source = .before source pred.body.length := by
      simp [endPoint,found]
    rw [end_] at ready
    exact dominates_of_first ready.2

theorem keeps_initial (placed : Placed program inserted) :
    Keeps tree inserted (.initial program.function) (visits tree inserted) := by
  have isVariable : ∀ entry ∈ (State.initial program.function).reaching,∃ n,
      entry = (.name n,.name n) ∧ owner program.function n = none := by
    intro entry member
    obtain ⟨n,isName,rfl⟩ := List.mem_map.mp member
    exact ⟨n,rfl,owner_defined (mem_memoirNames.mp isName).2⟩
  have unmentioned : ∀ n,owner program.function n ≠ none →
      ¬ Mentioned (State.initial program.function).reaching n := by
    rintro n isVersion ⟨entry,member,same⟩
    obtain ⟨m,rfl,none⟩ := isVariable entry member
    obtain rfl : m = n := same.elim Value.name.inj Value.name.inj
    exact isVersion none
  refine ⟨⟨fun _ => 0,0,?_,?_⟩,fun _ _ n isVersion _ => unmentioned n isVersion,fun _ _ _ => rfl,?_,
    proper_visits placed,distinct_visits placed⟩
  · intro entry member
    obtain ⟨n,rfl,none⟩ := isVariable entry member
    exact .itself none
  · exact fun n isVersion mentioned => absurd mentioned (unmentioned n isVersion)
  · exact fun target phi isPhi entry member => ⟨entry.2,initial_edge placed isPhi member⟩

theorem keeps_reached (placed : Placed program inserted)
    (reached : Reached usePhis tree inserted (Plain usePhis tree) state rest) :
    Keeps tree inserted state rest := by
  induction reached with
  | initial => exact keeps_initial placed
  | step _ plain ran ih =>
    obtain ⟨after,ran',keeps⟩ := ih.step plain
    obtain rfl := Option.some.inj (ran.symm.trans ran')
    exact keeps

end

/-- An entry that is set stays in the list, so the states inside a visit are ends of the one after it.
A version is searched for where its variable is in scope. -/
theorem searches_end {program : Program} {tree : Tree program.function} {usePhis : Bool}
    {inserted : List (Name × List Nat)} (placed : insertedPhis usePhis tree = some inserted)
    {state : State} {rest : List Visit}
    (reached : Reached usePhis tree inserted (Plain usePhis tree) state rest) :
    (∀ reaching,reaching <:+ state.reaching → ∀ value point,
      (∀ version named,value = .name version → owner program.function version = some (.name named) →
        dominates tree named point) →
      ∃ definition,updateReachingDefinition tree reaching value point =
        some (setReachingDefinition reaching value definition,definition)) ∧
    ∀ visit later,rest = visit :: later → Plain usePhis tree state visit →
      ∃ after,perform usePhis tree state visit = some after := by
  have keeps := keeps_reached (placed_insertedPhis placed) reached
  refine ⟨?_,?_⟩
  · intro reaching suffix value point scope
    obtain ⟨age,now,dated⟩ := keeps.sound
    have dated : Dated program.function age now reaching := by
      refine ⟨fun entry member => dated.records entry (suffix.subset member),?_⟩
      rintro n isVersion ⟨entry,member,same⟩
      exact dated.past n isVersion ⟨entry,suffix.subset member,same⟩
    have ends : ∃ definition,chase (dominates tree · point) reaching value (reaching.length + 1) value =
        some definition := by
      by_cases isVariable : Variable program.function value
      · obtain ⟨definition,chased,_⟩ := chase_variable dated isVariable
        exact ⟨definition,chased⟩
      · simp only [Variable,not_forall] at isVariable
        obtain ⟨version,rfl,isVersion⟩ := isVariable
        obtain ⟨named,made⟩ := Option.ne_none_iff_exists'.mp isVersion
        obtain ⟨definition,chased,_⟩ := chase_version (dominates tree · point) (.name version) dated
          (fun n same => .inl (scope version n rfl (same ▸ made))) made
          (Nat.lt_succ_of_le (upTo_le_length (age version)))
        exact ⟨definition,chased⟩
    obtain ⟨definition,chased⟩ := ends
    refine ⟨definition,?_⟩
    rw [updateReachingDefinition,chased]
    rfl
  · rintro visit later rfl plain
    obtain ⟨after,ran,_⟩ := keeps.step plain
    exact ⟨after,ran⟩

/-- A question for a key, and its insertion. -/
def hasThenInsert : Function where
  arguments := 1
  blocks := [⟨[],[(.inst 0 0,.assocHas (.name (.argument 0)) (.constant 7)),
    (.inst 0 1,.mutAssocInsert (.name (.argument 0)) (.constant 7))],.ret none⟩]
  valueIsCollectionType
    | .argument _ => true
    | _ => false

def hasThenInsertTree : Tree hasThenInsert := .acyclic hasThenInsert.graph 1 [0] (by decide)

def insertedKey : Function where
  arguments := 1
  blocks := [⟨[],[(.inst 0 0,.mutAssocInsert (.name (.argument 0)) (.constant 7)),
    (.inst 0 1,.assocHas (.name (.argument 0)) (.constant 7))],.ret none⟩]
  valueIsCollectionType
    | .argument _ => true
    | _ => false

def insertedKeyTree : Tree insertedKey := .acyclic insertedKey.graph 1 [0] (by decide)

def hasThenInsertReaching : Reaching :=
  [(.name (.ssa 0 1 0),.name (.argument 0)),(.name (.argument 0),.name (.ssa 0 1 0)),
    (.name (.argument 0),.name (.argument 0)),(.name (.argument 0),.name (.argument 0)),
    (.name (.argument 0),.name (.argument 0)),(.name (.argument 0),.name (.argument 0)),
    (.name (.argument 0),.name (.argument 0))]

theorem hasThenInsert_searches_end : ∃ definition,updateReachingDefinition hasThenInsertTree
    hasThenInsertReaching (.name (.argument 0)) (.before 0 0) =
      some (setReachingDefinition hasThenInsertReaching (.name (.argument 0)) definition,definition) := by
  have plain : @Plain (hasThenInsert.accepted hasThenInsertTree (by decide)) true hasThenInsertTree
      (.initial hasThenInsert) (.inst 0 0 (.inst 0 0)
        (.assocHas (.name (.argument 0)) (.constant 7))) := by
    rintro - n made ⟨entry,member,same⟩
    obtain rfl := List.mem_singleton.mp member
    obtain rfl : .argument 0 = n := same.elim Value.name.inj Value.name.inj
    exact absurd made (by simp [owner])
  have reached : Reached true hasThenInsertTree [(.argument 0,[])]
      (@Plain (hasThenInsert.accepted hasThenInsertTree (by decide)) true hasThenInsertTree)
      ⟨hasThenInsertReaching,initialIncoming hasThenInsert⟩ [.terminator 0 2 (.ret none)] :=
    .step (.step .initial plain rfl) trivial rfl
  have ends := @searches_end (hasThenInsert.accepted hasThenInsertTree (by decide)) hasThenInsertTree true
    [(.argument 0,[])] rfl _ _ reached
  apply ends.1 hasThenInsertReaching (List.suffix_refl _) (.name (.argument 0)) (.before 0 0)
  intro version named same made
  obtain rfl := Value.name.inj same
  exact absurd made (by simp [owner])

/-- The version that the insertion makes is recorded for itself. -/
theorem insertedKey_endless : ∃ state rest,
    insertedPhis true insertedKeyTree = some [(.argument 0,[])] ∧
    Reached true insertedKeyTree [(.argument 0,[])] (fun _ _ => True) state rest ∧
    ∀ fuel,chase (dominates insertedKeyTree · (.before 0 0)) state.reaching (.name (.argument 0)) fuel
      (.name (.argument 0)) = none := by
  refine ⟨_,_,rfl,.step (.step .initial trivial rfl) trivial rfl,?_⟩
  have loops : ∀ fuel,chase (dominates insertedKeyTree · (.before 0 0))
      [(.name (.ssa 0 0 0),.name (.ssa 0 0 0)),(.name (.argument 0),.name (.ssa 0 0 0)),
        (.name (.argument 0),.name (.ssa 0 0 0)),(.name (.ssa 0 0 0),.name (.argument 0)),
        (.name (.argument 0),.name (.ssa 0 0 0)),(.name (.argument 0),.name (.argument 0)),
        (.name (.argument 0),.name (.argument 0))] (.name (.argument 0)) fuel
      (.name (.ssa 0 0 0)) = none := by
    intro fuel
    induction fuel with
    | zero => rfl
    | succ fuel ih => exact ih
  intro fuel
  cases fuel with
  | zero => rfl
  | succ fuel => exact loops fuel

end Memoir.UsePhis
