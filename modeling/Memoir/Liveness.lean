import Memoir.Placement

/-! Which version is the nearest after an instruction and after an edge, where a
variable is used again. -/
namespace Memoir
open Dominance

inductive Live (function : Function) (x : Name) : Nat → Nat → Prop
  | operand {b i : Nat} {block : BasicBlock} {n : Name} {inst : Inst}
    (found : function.blocks[b]? = some block) (entry : block.body[i]? = some (n,inst))
    (used : .name x ∈ inst.operands) : Live function x b i
  | next {b i : Nat} {block : BasicBlock} {n : Name} {inst : Inst}
    (found : function.blocks[b]? = some block) (entry : block.body[i]? = some (n,inst))
    (apart : n ≠ x) (later : Live function x b (i + 1)) : Live function x b i
  | returned {b : Nat} {block : BasicBlock} (found : function.blocks[b]? = some block)
    (used : .name x ∈ block.terminator.operands) : Live function x b block.body.length
  | incoming {s t : Nat} {block target : BasicBlock} {n : Name} {phi : Phi}
    (found : function.blocks[s]? = some block) (edge : t ∈ function.successors s)
    (found' : function.blocks[t]? = some target) (member : (n,phi) ∈ target.phis)
    (used : (s,.collection (.name x)) ∈ phi.incoming) : Live function x s block.body.length
  | edge {s t : Nat} {block : BasicBlock} (found : function.blocks[s]? = some block)
    (edge : t ∈ function.successors s) (apart : ∀ j, x ≠ .phi t j) (later : Live function x t 0) :
    Live function x s block.body.length

namespace Construction

/-- Where a variable gets no PHI node because one takes it already, it is not used
again. -/
def Unshared (program : Program) (tree : Tree program.function) : Prop :=
  ∀ x ∈ memoirNames program.function, ∀ a t,
    a ∈ definitionParents program.function x ∨ Merged tree x a →
      program.function.graph.InFrontier a t → nameDoesntDominate tree x t = false →
        nameAlreadyInPhi program.function x t = true → ¬ Live program.function x t 0

section
variable {program : Program} {tree : Tree program.function} {inserted : List (Name × List Nat)}
  {x d : Name}

theorem dominates_next {n : Name} {b i : Nat} (above : dominates tree n (.before b i) = true) :
    dominates tree n (.before b (i + 1)) = true := by
  cases at_ : n.block? with
  | none => exact dominates_argument tree at_ _
  | some s =>
    rw [dominates_iff tree at_] at above ⊢
    exact above.imp_left fun same => ⟨same.1,Nat.lt_succ_of_lt same.2⟩

/-- A version that is made at an instruction is its result, or a new version of an operand. -/
theorem version_here {b i : Nat} {inst : Inst}
    (at_ : program.function.instruction? (.inst b i) = some inst)
    (variable_ : x ∈ memoirNames program.function)
    (version : Version program.function inserted x d) (here : site d = some (.before b i)) :
    (x = .inst b i ∧ d = firstVersion program.function x) ∨
      ∃ k, d = .ssa b i k ∧ (.name x,k) ∈ inst.redefines := by
  have old := Program.not_isNew_variable variable_
  cases version with
  | first =>
    rw [firstVersion_site] at here
    refine .inl ⟨?_,rfl⟩
    cases x <;> simp_all [site,Name.IsNew]
  | @redefined b' i' k inst' found redefines =>
    simp only [site,Option.some.injEq,Point.before.injEq] at here
    obtain ⟨rfl,rfl⟩ := here
    obtain rfl := Option.some.inj (found.symm.trans at_)
    exact .inr ⟨k,rfl,redefines⟩
  | inserted member => exact absurd here (by simp [site])

/-- Of two versions above a point, one with the point before it as its site is nearest. -/
theorem nearest_made {p q : Point} {w : Name} (reachable : program.function.graph.Reachable p.block)
    (version : Version program.function inserted x w) (at_ : site w = some p)
    (above : dominates tree w q = true)
    (nearest : Nearest program.function tree inserted x q d)
    (before : ∀ n, dominates tree n q = true → site n = some p ∨ dominates tree n p = true) :
    site d = some p ∧ (d = w ∨ dominates tree w p = true) := by
  rcases nearest.2.2 w version above with rfl | ⟨r,at',covers⟩
  · exact ⟨at_,.inl rfl⟩
  · rcases before d nearest.2.1 with here | below
    · exact absurd (Option.some.inj (here.symm.trans at') ▸ covers) (not_dominates_site tree at_)
    · exact absurd (dominates_trans tree at' covers below reachable) (not_dominates_site tree at_)

theorem dominates_previous {n : Name} {b i : Nat}
    (above : dominates tree n (.before b (i + 1)) = true) :
    site n = some (.before b i) ∨ dominates tree n (.before b i) = true := by
  cases at_ : n.block? with
  | none => exact .inr (dominates_argument tree at_ _)
  | some s =>
    obtain ⟨q,at',block,position⟩ := exists_site at_
    rw [dominates_iff tree at_] at above ⊢
    rcases above with ⟨rfl,lower⟩ | above
    · by_cases last : n.position = i + 1
      · exact .inl (at'.trans (congrArg some (Point.eq block (position.trans last))))
      · simp only [Point.position] at lower
        exact .inr (.inl ⟨rfl,by simp only [Point.position]; omega⟩)
    · exact .inr (.inr above)

theorem dominates_after {n : Name} {b i : Nat} (at_ : site n = some (.before b i)) :
    dominates tree n (.before b (i + 1)) = true := by
  obtain ⟨block,position⟩ := site_block at_
  exact (dominates_iff tree block _).mpr (.inl ⟨rfl,position ▸ Nat.lt_succ_self _⟩)

/-- The nearest version after an instruction. -/
theorem nearest_next {b i : Nat} {inst : Inst} (reachable : program.function.graph.Reachable b)
    (at_ : program.function.instruction? (.inst b i) = some inst)
    (variable_ : x ∈ memoirNames program.function)
    (nearest : Nearest program.function tree inserted x (.before b (i + 1)) d) :
    (x = .inst b i ∧ d = firstVersion program.function x) ∨
    (∃ k, (.name x,k) ∈ inst.redefines ∧ d = .ssa b i k) ∨
    (x ≠ .inst b i ∧ (∀ k, (.name x,k) ∉ inst.redefines) ∧
      Nearest program.function tree inserted x (.before b i) d) := by
  have made : ∀ w, Version program.function inserted x w → site w = some (.before b i) →
      site d = some (.before b i) := fun w version here =>
    (nearest_made reachable version here (dominates_after here) nearest
      fun n above => dominates_previous above).1
  rcases dominates_previous nearest.2.1 with here | below
  · rcases version_here at_ variable_ nearest.1 here with first | ⟨k,rfl,redefines⟩
    · exact .inl first
    · exact .inr (.inl ⟨k,redefines,rfl⟩)
  · have elsewhere : site d ≠ some (.before b i) := fun here => not_dominates_site tree here below
    refine .inr (.inr ⟨?_,?_,nearest.1,below,?_⟩)
    · rintro rfl
      exact elsewhere (made _ .first (firstVersion_site _ _))
    · exact fun k redefines => elsewhere (made _ (.redefined at_ redefines) rfl)
    · exact fun w version above => nearest.2.2 w version (dominates_next above)

/-- Before the first instruction of a block. -/
theorem dominates_first {n : Name} {t : Nat} (above : dominates tree n (.before t 0) = true) :
    site n = some (.phi t) ∨ n.block? = none ∨
      ∃ s, n.block? = some s ∧ program.function.graph.StrictlyDominates s t := by
  cases at_ : n.block? with
  | none => exact .inr (.inl rfl)
  | some s =>
    obtain ⟨q,at',block,position⟩ := exists_site at_
    rcases (dominates_iff tree at_ _).mp above with ⟨same,lower⟩ | ⟨apart,above⟩
    · refine .inl (at'.trans (congrArg some (Point.eq (block.trans same) ?_)))
      rw [position]
      exact Nat.lt_one_iff.mp lower
    · exact .inr (.inr ⟨s,rfl,above,apart⟩)

theorem version_phi {t : Nat} (variable_ : x ∈ memoirNames program.function)
    (version : Version program.function inserted x d) (here : site d = some (.phi t)) :
    (∃ j, x = .phi t j ∧ d = x) ∨ (x ∈ insertedAt inserted t ∧ d = .insertedPhi t x) := by
  have old := Program.not_isNew_variable variable_
  cases version with
  | first =>
    rw [firstVersion_site] at here
    cases x <;> simp_all [site,Name.IsNew,firstVersion]
  | redefined found redefines => exact absurd here (by simp [site])
  | inserted member =>
    simp only [site,Option.some.injEq,Point.phi.injEq] at here
    subst here
    exact .inr ⟨member,rfl⟩

theorem version_parent {w : Name} {a : Nat} (version : Version program.function inserted x w)
    (at_ : w.block? = some a) :
    a ∈ definitionParents program.function x ∨ x ∈ insertedAt inserted a := by
  cases version with
  | first =>
    rw [firstVersion_block] at at_
    exact .inl (List.mem_append_left _ (by simp [at_]))
  | redefined found redefines =>
    obtain rfl := Option.some.inj at_
    obtain ⟨block,n,found',entry⟩ := Function.instruction?_eq_some found
    refine .inl (List.mem_append_right _ (List.mem_filter.mpr ⟨?_,?_⟩))
    · exact List.mem_range.mpr (List.getElem?_eq_some_iff.mp found').1
    · simp only [found',Option.map_some,Option.getD_some,List.any_eq_true]
      exact ⟨_,List.mem_of_getElem? entry,Inst.redefines_defines redefines⟩
  | inserted member =>
    obtain rfl := Option.some.inj at_
    exact .inr member

theorem dominates_end (variable_ : x ∈ memoirNames program.function)
    (version : Version program.function inserted x d) {s t : Nat} {block : BasicBlock}
    (found : program.function.blocks[s]? = some block) (edge : t ∈ program.function.successors s)
    (above : d.block? = none ∨
      ∃ a, d.block? = some a ∧ program.function.graph.StrictlyDominates a t) :
    dominates tree d (.before s block.body.length) = true := by
  rcases above with at_ | ⟨a,at_,strict⟩
  · exact dominates_argument tree at_ _
  · rw [dominates_iff tree at_]
    by_cases same : a = s
    · subst same
      exact .inl ⟨rfl,Nat.lt_succ_of_le (version_position variable_ version at_ found)⟩
    · exact .inr ⟨same,strict.predecessor edge⟩

/-- What a version dominates its variable dominates. -/
theorem variable_dominates (tree : Tree program.function) (placed : Placed program inserted)
    (variable_ : x ∈ memoirNames program.function)
    (version : Version program.function inserted x d) {t v : Nat}
    (above : d.block? = none ∨
      ∃ a, d.block? = some a ∧ program.function.graph.StrictlyDominates a t)
    (at_ : x.block? = some v) : program.function.graph.StrictlyDominates v t := by
  by_cases first : d = firstVersion program.function x
  · rw [first,firstVersion_block,at_] at above
    obtain ⟨a,same,strict⟩ := above.resolve_left (by simp)
    exact Option.some.inj same ▸ strict
  · obtain ⟨p,here,covers⟩ := placed.first_above tree variable_ version first
    rw [(site_block here).1] at above
    obtain ⟨a,same,strict⟩ := above.resolve_left (by simp)
    obtain rfl := Option.some.inj same
    rcases (dominates_iff tree ((firstVersion_block _ _).trans at_) p).mp covers with
      ⟨same,_⟩ | ⟨_,covers⟩
    · exact same ▸ strict
    · exact strict.trans_right covers (placed.site_reachable variable_ version here)

/-- The nearest version after an edge. -/
theorem nearest_edge (placed : Placed program inserted) (closed : Closed tree inserted)
    (unshared : Unshared program tree) {s t : Nat} {block : BasicBlock}
    (found : program.function.blocks[s]? = some block) (edge : t ∈ program.function.successors s)
    (reachable : program.function.graph.Reachable s)
    (variable_ : x ∈ memoirNames program.function) (live : Live program.function x t 0)
    (nearest : Nearest program.function tree inserted x (.before t 0) d) :
    (∃ j, x = .phi t j ∧ d = x) ∨ (x ∈ insertedAt inserted t ∧ d = .insertedPhi t x) ∨
    ((∀ j, x ≠ .phi t j) ∧ x ∉ insertedAt inserted t ∧
      Nearest program.function tree inserted x (.before s block.body.length) d) := by
  have reachable' : program.function.graph.Reachable t := reachable.successor edge
  have previous : ∀ n, dominates tree n (.before t 0) = true →
      site n = some (.phi t) ∨ dominates tree n (.phi t) = true := by
    intro n above
    rcases dominates_first above with here | none | ⟨a,at_,strict⟩
    · exact .inl here
    · exact .inr (dominates_argument tree none _)
    · exact .inr ((dominates_iff tree at_ _).mpr (.inr ⟨strict.2,strict.1⟩))
  have after : ∀ {n : Name}, site n = some (.phi t) → dominates tree n (.before t 0) = true := by
    intro n here
    obtain ⟨block,position⟩ := site_block here
    exact (dominates_iff tree block _).mpr (.inl ⟨rfl,position ▸ Nat.zero_lt_one⟩)
  have made : ∀ w, Version program.function inserted x w → site w = some (.phi t) →
      site d = some (.phi t) := fun w version here =>
    (nearest_made reachable' version here (after here) nearest previous).1
  by_cases here : site d = some (.phi t)
  · exact (version_phi variable_ nearest.1 here).imp_right .inl
  · have above := (dominates_first nearest.2.1).resolve_left here
    have absent : x ∉ insertedAt inserted t := fun member => here (made _ (.inserted member) rfl)
    refine .inr (.inr ⟨?_,absent,nearest.1,
      dominates_end variable_ nearest.1 found edge above,fun w version covers => ?_⟩)
    · rintro j rfl
      exact here (made _ .first ((firstVersion_site _ _).trans rfl))
    -- a version that dominates the edge but not the block would have a PHI node there
    · refine nearest.2.2 w version ?_
      cases at_ : w.block? with
      | none => exact dominates_argument tree at_ _
      | some a =>
        have source : program.function.graph.Dominates a s := by
          rcases (dominates_iff tree at_ _).mp covers with ⟨same,_⟩ | ⟨_,covers⟩
          · exact same ▸ Graph.Dominates.refl _
          · exact covers
        by_cases strict : program.function.graph.StrictlyDominates a t
        · exact (dominates_iff tree at_ _).mpr (.inr ⟨strict.2,strict.1⟩)
        · have frontier : program.function.graph.InFrontier a t :=
            ⟨s,reachable,edge,source,strict⟩
          have parent := version_parent version at_
          have covers' : nameDoesntDominate tree x t = false := by
            cases block' : x.block? with
            | none => simp [nameDoesntDominate,block']
            | some v =>
              have first := variable_dominates tree placed variable_ nearest.1 above block'
              simp only [nameDoesntDominate,block',List.any_eq_false,Bool.not_eq_true',
                Bool.not_eq_false]
              intro source member
              exact (tree.dominates_iff v source).mpr
                (first.predecessor (mem_predecessors.mp member))
          rcases closed.frontier x variable_ a parent t frontier with member | skipped | skipped
          · exact absurd member absent
          · exact absurd (covers'.symm.trans skipped) (by simp)
          · exact absurd live (unshared x variable_ a t
              (parent.imp_right (closed.merged _ _)) frontier covers' skipped)

end

end Construction
end Memoir
