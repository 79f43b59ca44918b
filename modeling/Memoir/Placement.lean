import Memoir.Constructed
import Mathlib.Data.List.Perm.Subperm

/-! The placement of PHI nodes ends, and is closed under dominance frontiers but for
the blocks that it skips. -/
namespace Memoir.Construction
open Dominance

section
variable {function : Function} (tree : Tree function) (x : Name)

def Skipped (b : Nat) : Prop :=
  nameDoesntDominate tree x b = true ∨ nameAlreadyInPhi function x b = true

def Merged : Nat → Prop :=
  function.graph.IteratedFrontier (· ∈ definitionParents function x) (¬ Skipped tree x ·)

theorem visitFrontier_spec (frontier : List Nat) : ∀ worklist parents, parents.Nodup →
    ∃ new, visitFrontier tree x frontier worklist parents = (worklist ++ new,parents ++ new) ∧
      (∀ b ∈ new, b ∈ frontier ∧ ¬ Skipped tree x b) ∧ (parents ++ new).Nodup ∧
      ∀ b ∈ frontier, b ∈ parents ++ new ∨ Skipped tree x b := by
  induction frontier with
  | nil => exact fun worklist parents nodup => ⟨[],by simp [visitFrontier],by simp,by simpa,by simp⟩
  | cons b rest ih =>
    intro worklist parents nodup
    unfold visitFrontier
    split_ifs with skip
    · obtain ⟨new,visited,chosen,nodup,complete⟩ := ih worklist parents nodup
      refine ⟨new,visited,fun b' member => (chosen b' member).imp (List.mem_cons_of_mem _) id,nodup,?_⟩
      intro b' member
      rcases List.mem_cons.mp member with rfl | member
      · simp only [Bool.or_eq_true,decide_eq_true_eq] at skip
        rcases skip with (placed | skip) | skip
        · exact .inl (List.mem_append_left _ placed)
        · exact .inr (.inl skip)
        · exact .inr (.inr skip)
      · exact complete b' member
    · simp only [Bool.or_eq_true,decide_eq_true_eq,not_or] at skip
      have nodup' : (parents ++ [b]).Nodup := by
        simp only [List.nodup_append,List.nodup_cons,List.not_mem_nil,not_false_eq_true,
          List.nodup_nil,List.mem_singleton,and_self,true_and]
        refine ⟨nodup,fun a member b' same => ?_⟩
        rintro rfl
        exact skip.1.1 (same ▸ member)
      obtain ⟨new,visited,chosen,nodup,complete⟩ := ih (worklist ++ [b]) (parents ++ [b]) nodup'
      refine ⟨b :: new,by simpa using visited,?_,by simpa using nodup,?_⟩
      · intro b' member
        rcases List.mem_cons.mp member with rfl | member
        · exact ⟨List.mem_cons_self,fun this => this.elim skip.1.2 skip.2⟩
        · exact (chosen b' member).imp (List.mem_cons_of_mem _) id
      · intro b' member
        rcases List.mem_cons.mp member with rfl | member
        · exact .inl (by simp)
        · simpa using complete b' member

structure Placing (worklist parents : List Nat) : Prop where
  pending : ∀ a ∈ worklist, a ∈ definitionParents function x ∨ a ∈ parents
  nodup : parents.Nodup
  chosen : ∀ b ∈ parents, b < function.blocks.length ∧ function.graph.Reachable b ∧
    Merged tree x b ∧ ¬ Skipped tree x b
  closed : ∀ a, a ∈ definitionParents function x ∨ a ∈ parents → a ∈ worklist ∨
    ∀ b, function.graph.InFrontier a b → b ∈ parents ∨ Skipped tree x b

end

section
variable {program : Program} {tree : Tree program.function} {x : Name}

theorem frontier_block {a b : Nat} (frontier : program.function.graph.InFrontier a b) :
    b < program.function.blocks.length ∧ b ≠ 0 ∧ program.function.graph.Reachable b := by
  obtain ⟨source,reachable,edge,_⟩ := frontier
  exact ⟨(program.targets source b edge).1,(program.targets source b edge).2,
    reachable.successor edge⟩

theorem insertPhis_spec
    (reachable : ∀ a ∈ definitionParents program.function x, program.function.graph.Reachable a)
    (fuel : Nat) : ∀ worklist parents, Placing tree x worklist parents →
      worklist.length + (program.function.blocks.length - parents.length) ≤ fuel →
      ∃ result, insertPhis tree x fuel worklist parents = some result ∧
        Placing tree x [] result := by
  induction fuel with
  | zero =>
    intro worklist parents placing enough
    cases worklist with
    | nil => exact ⟨parents,rfl,placing⟩
    | cons a rest => simp at enough
  | succ fuel ih =>
    intro worklist parents placing enough
    cases worklist with
    | nil => exact ⟨parents,rfl,placing⟩
    | cons a rest =>
      have here : program.function.graph.Reachable a := by
        rcases placing.pending a List.mem_cons_self with member | member
        · exact reachable a member
        · exact (placing.chosen a member).2.1
      obtain ⟨frontier,found⟩ := Option.isSome_iff_exists.mp ((tree.frontier_reachable a).mpr here)
      have inFrontier := tree.frontier_iff a frontier found
      obtain ⟨new,visited,chosen,nodup,complete⟩ :=
        visitFrontier_spec tree x frontier rest parents placing.nodup
      have chosen' : ∀ b ∈ parents ++ new, b < program.function.blocks.length ∧
          program.function.graph.Reachable b ∧ Merged tree x b ∧ ¬ Skipped tree x b := by
        intro b member
        rcases List.mem_append.mp member with member | member
        · exact placing.chosen b member
        · have isFrontier := (inFrontier b).mp (chosen b member).1
          obtain ⟨bound,_,reached⟩ := frontier_block isFrontier
          refine ⟨bound,reached,?_,(chosen b member).2⟩
          rcases placing.pending a List.mem_cons_self with source | source
          · exact .first source isFrontier (chosen b member).2
          · exact .next (placing.chosen a source).2.2.1 isFrontier (chosen b member).2
      have next : Placing tree x (rest ++ new) (parents ++ new) := by
        refine ⟨?_,nodup,chosen',?_⟩
        · intro b member
          rcases List.mem_append.mp member with member | member
          · exact (placing.pending b (List.mem_cons_of_mem _ member)).imp_right
              (List.mem_append_left _)
          · exact .inr (List.mem_append_right _ member)
        · intro b member
          by_cases added : b ∈ new
          · exact .inl (List.mem_append_right _ added)
          · have member' : b ∈ definitionParents program.function x ∨ b ∈ parents :=
              member.imp_right fun this => (List.mem_append.mp this).resolve_right added
            rcases placing.closed b member' with pending | closed
            · rcases List.mem_cons.mp pending with rfl | pending
              · exact .inr fun b' isFrontier => complete b' ((inFrontier b').mpr isFrontier)
              · exact .inl (List.mem_append_left _ pending)
            · exact .inr fun b' isFrontier =>
                (closed b' isFrontier).imp_left (List.mem_append_left _)
      have short : (parents ++ new).length ≤ program.function.blocks.length := by
        have within : (parents ++ new) ⊆ List.range program.function.blocks.length :=
          fun b member => List.mem_range.mpr (chosen' b member).1
        have := (List.subperm_of_subset nodup within).length_le
        rwa [List.length_range] at this
      obtain ⟨result,inserted,placing'⟩ := ih _ _ next (by
        simp only [List.length_append,List.length_cons] at enough short ⊢
        omega)
      refine ⟨result,?_,placing'⟩
      simp only [insertPhis,found,visited,Option.bind_eq_bind,Option.bind_some]
      exact inserted

end

theorem mapM_some {α β : Type} {f : α → Option β} {g : α → β} {xs : List α}
    (each : ∀ x ∈ xs, f x = some (g x)) : xs.mapM f = some (xs.map g) := by
  induction xs with
  | nil => rfl
  | cons x xs ih =>
    simp only [List.mapM_cons,each x List.mem_cons_self,
      ih fun y member => each y (List.mem_cons_of_mem _ member),Option.bind_eq_bind,
      Option.bind_some,Option.pure_def,List.map_cons]

theorem memoirNames_nodup (program : Program) : (memoirNames program.function).Nodup := by
  refine List.Nodup.filter _ (List.nodup_append.mpr ⟨?_,?_,?_⟩)
  · exact List.nodup_range.map fun i j same => Name.argument.inj same
  · refine List.nodup_flatMap.mpr ⟨fun block member => ?_,List.pairwise_iff_getElem.mpr ?_⟩
    · obtain ⟨b,bound,rfl⟩ := List.mem_iff_getElem.mp member
      have found := List.getElem?_eq_getElem bound
      rw [program.phis_named b _ found,program.body_named b _ found]
      refine List.nodup_append.mpr ⟨?_,?_,?_⟩
      · exact List.nodup_range.map fun i j same => (Name.phi.inj same).2
      · exact List.nodup_range.map fun i j same => (Name.inst.inj same).2
      · intro n member m member' same
        obtain ⟨_,_,rfl⟩ := List.mem_map.mp member
        obtain ⟨_,_,rfl⟩ := List.mem_map.mp member'
        exact absurd same (by simp)
    · intro i j inBounds inBounds' lt n member member'
      have at_ := program.names_block (List.getElem?_eq_getElem inBounds) member
      have at' := program.names_block (List.getElem?_eq_getElem inBounds') member'
      exact Nat.ne_of_lt lt (Option.some.inj (at_.symm.trans at'))
  · intro n member m member' same
    subst same
    obtain ⟨i,_,rfl⟩ := List.mem_map.mp member
    obtain ⟨block,inBlocks,named⟩ := List.mem_flatMap.mp member'
    obtain ⟨b,bound,rfl⟩ := List.mem_iff_getElem.mp inBlocks
    exact absurd (program.names_block (List.getElem?_eq_getElem bound) named) (by simp [Name.block?])

/-- The placement for all variables: where a PHI node is not inserted in a frontier,
the block was skipped. -/
structure Closed {function : Function} (tree : Tree function) (inserted : List (Name × List Nat)) :
    Prop where
  merged : ∀ b x, x ∈ insertedAt inserted b → Merged tree x b
  frontier : ∀ x ∈ memoirNames function, ∀ a, a ∈ definitionParents function x ∨
    x ∈ insertedAt inserted a → ∀ b, function.graph.InFrontier a b →
      x ∈ insertedAt inserted b ∨ Skipped tree x b

/-- A block that is not skipped is below the definition of the variable. -/
theorem strictlyDominates_of_not_skipped {program : Program} {tree : Tree program.function} {x : Name}
    {b s : Nat} (entry : b ≠ program.function.graph.entry) (reached : program.function.graph.Reachable b)
    (unskipped : ¬ Skipped tree x b) (block : x.block? = some s) :
    program.function.graph.StrictlyDominates s b := by
  have all : ∀ source, b ∈ program.function.graph.successors source →
      program.function.graph.Dominates s source := by
    intro source edge
    by_contra apart
    refine unskipped (.inl ?_)
    simp only [nameDoesntDominate,block,List.any_eq_true,Bool.not_eq_true']
    refine ⟨source,mem_predecessors.mpr edge,?_⟩
    exact Bool.eq_false_iff.mpr fun above => apart ((tree.dominates_iff s source).mp above)
  refine ⟨Graph.dominates_of_predecessors entry all,?_⟩
  rintro rfl
  obtain ⟨source,_,edge,apart⟩ := Graph.not_self_predecessors entry reached
  exact apart (all source edge)

theorem placement {program : Program} (tree : Tree program.function)
    (reachable : ∀ x ∈ memoirNames program.function, ∀ b ∈ definitionParents program.function x,
      program.function.graph.Reachable b) :
    ∃ inserted, insertedPhis tree = some inserted ∧ Placed program inserted ∧
      Closed tree inserted := by
  have each : ∀ x ∈ memoirNames program.function, ∃ parents, phiParents tree x = some parents ∧
      Placing tree x [] parents := by
    intro x variable_
    refine insertPhis_spec (reachable x variable_) _ _ _
      ⟨fun a member => .inl member,List.nodup_nil,by simp,fun a member => ?_⟩ (by simp)
    exact .inl (member.resolve_right (List.not_mem_nil))
  let parents := fun x => (phiParents tree x).getD []
  have spec : ∀ x ∈ memoirNames program.function, phiParents tree x = some (parents x) ∧
      Placing tree x [] (parents x) := by
    intro x variable_
    obtain ⟨result,found,placing⟩ := each x variable_
    have same : parents x = result := by simp [parents,found]
    exact ⟨same ▸ found,same ▸ placing⟩
  have at_ : ∀ b, insertedAt ((memoirNames program.function).map fun x => (x,parents x)) b =
      (memoirNames program.function).filter fun x => b ∈ parents x := by
    intro b
    simp only [insertedAt,List.filter_map,List.map_map]
    exact List.map_id _
  have mem : ∀ b x, x ∈ insertedAt ((memoirNames program.function).map fun x => (x,parents x)) b ↔
      x ∈ memoirNames program.function ∧ b ∈ parents x := by
    intro b x
    rw [at_,List.mem_filter,decide_eq_true_eq]
  refine ⟨(memoirNames program.function).map fun x => (x,parents x),?_,
    ⟨reachable,?_,?_,?_⟩,⟨?_,?_⟩⟩
  · exact mapM_some fun x variable_ => by simp [(spec x variable_).1]
  · exact fun b x member => ((mem b x).mp member).1
  · intro b x member
    obtain ⟨variable_,parent⟩ := (mem b x).mp member
    obtain ⟨_,reached,merged,unskipped⟩ := (spec x variable_).2.chosen b parent
    refine ⟨reached,fun s block => ?_⟩
    have entry : b ≠ program.function.graph.entry := by
      cases merged with
      | first _ frontier _ => exact (frontier_block frontier).2.1
      | next _ frontier _ => exact (frontier_block frontier).2.1
    exact strictlyDominates_of_not_skipped entry reached unskipped block
  · intro b
    rw [at_]
    exact (memoirNames_nodup program).filter _
  · intro b x member
    obtain ⟨variable_,parent⟩ := (mem b x).mp member
    exact ((spec x variable_).2.chosen b parent).2.2.1
  · intro x variable_ a source b frontier
    have source' : a ∈ definitionParents program.function x ∨ a ∈ parents x :=
      source.imp_right fun member => ((mem a x).mp member).2
    rcases (spec x variable_).2.closed a source' with pending | closed
    · exact absurd pending List.not_mem_nil
    · exact (closed b frontier).imp_left fun member => (mem b x).mpr ⟨variable_,member⟩

end Memoir.Construction
