import Memoir.Construction
import Memoir.Program

/-! The versions of a variable that construction makes, the nearest one above a
point, and the order in which the walk meets definitions and points. -/
namespace Memoir

def Name.position : Name → Nat
  | .inst _ i | .ssa _ i _ => i + 1
  | .argument _ | .phi _ _ | .insertedPhi _ _ => 0

/-- The operands that a mutable operation gives a new version, and where in the new
code it is. A swap of a variable with itself gives it the second result. -/
def Inst.redefines : Inst → List (Value × Nat)
  | mutSeqAppend collection _ | mutSeqSplit collection _ _ => [(collection,1)]
  | mutSeqSwap fromCollection _ _ toCollection _ =>
    if fromCollection = toCollection then [(toCollection,2)]
    else [(fromCollection,1),(toCollection,2)]
  | inst => if inst.isMut then inst.mutated.map fun operand => (operand,0) else []

namespace Construction
open Dominance

def Point.block : Point → Nat
  | .before b _ | .phi b => b

def Point.position : Point → Nat
  | .before _ i => i + 1
  | .phi _ => 0

theorem Point.eq {p q : Point} (block : p.block = q.block) (position : p.position = q.position) :
    p = q := by
  cases p <;> cases q <;> simp_all [Point.block,Point.position]

def site : Name → Option Point
  | .argument _ => none
  | .phi b _ | .insertedPhi b _ => some (.phi b)
  | .inst b i | .ssa b i _ => some (.before b i)

theorem site_block {n : Name} {p : Point} (at_ : site n = some p) :
    n.block? = some p.block ∧ n.position = p.position := by
  cases n <;> simp only [site,Option.some.injEq,reduceCtorEq] at at_ <;> subst at_ <;> exact ⟨rfl,rfl⟩

theorem exists_site {n : Name} {b : Nat} (at_ : n.block? = some b) :
    ∃ p, site n = some p ∧ p.block = b ∧ p.position = n.position := by
  cases n <;> simp only [Name.block?,Option.some.injEq,reduceCtorEq] at at_ <;> subst at_ <;>
    exact ⟨_,rfl,rfl,rfl⟩

section
variable {function : Function} (tree : Tree function)

theorem dominates_argument {n : Name} (argument : n.block? = none) (p : Point) :
    dominates tree n p = true := by
  cases n <;> simp_all [Name.block?,dominates]

theorem dominates_iff {n : Name} {b : Nat} (at_ : n.block? = some b) (p : Point) :
    dominates tree n p = true ↔
      (b = p.block ∧ n.position < p.position) ∨ (b ≠ p.block ∧ function.graph.Dominates b p.block) := by
  have block := tree.dominates_iff b p.block
  by_cases same : b = p.block
  · have self := block.mpr (same ▸ Graph.Dominates.refl b)
    cases n <;> cases p <;>
      simp_all [Name.block?,dominates,Point.block,Point.position,Name.position]
  · cases n <;> cases p <;>
      simp_all [Name.block?,dominates,Point.block,Point.position,Name.position]

theorem not_dominates_site {n : Name} {p : Point} (at_ : site n = some p) :
    ¬ dominates tree n p = true := by
  obtain ⟨block,position⟩ := site_block at_
  rw [dominates_iff tree block]
  simp [position]

theorem dominates_trans {a b : Name} {p q : Point} (at_ : site b = some p)
    (first : dominates tree a p = true) (second : dominates tree b q = true)
    (reachable : function.graph.Reachable q.block) : dominates tree a q = true := by
  obtain ⟨block,position⟩ := site_block at_
  cases above : a.block? with
  | none => exact dominates_argument tree above q
  | some s =>
    rw [dominates_iff tree above] at first ⊢
    rw [dominates_iff tree block] at second
    rcases first with ⟨rfl,lower⟩ | ⟨apart,first⟩
    · rcases second with ⟨same,lower'⟩ | second
      · exact .inl ⟨same,by omega⟩
      · exact .inr second
    · rcases second with ⟨same,lower'⟩ | ⟨apart',second⟩
      · exact .inr (same ▸ ⟨apart,first⟩)
      · exact .inr (Graph.StrictlyDominates.trans_left ⟨first,apart⟩ second reachable).symm

def Early (n : Name) (p : Point) : Prop :=
  ∀ b, n.block? = some b → tree.preorder.idxOf b < tree.preorder.idxOf p.block ∨
    (b = p.block ∧ n.position < p.position)

def Later (p q : Point) : Prop :=
  tree.preorder.idxOf p.block < tree.preorder.idxOf q.block ∨
    (p.block = q.block ∧ p.position ≤ q.position)

theorem Later.refl (p : Point) : Later tree p p := .inr ⟨rfl,Nat.le_refl _⟩

theorem Later.next (b i : Nat) : Later tree (.before b i) (.before b (i + 1)) :=
  .inr ⟨rfl,Nat.le_succ _⟩

variable {tree}

theorem Later.trans {p q r : Point} (first : Later tree p q) (second : Later tree q r) :
    Later tree p r := by
  rcases first with first | ⟨first,lower⟩
  · rcases second with second | ⟨second,_⟩
    · exact .inl (Nat.lt_trans first second)
    · exact .inl (second ▸ first)
  · rcases second with second | ⟨second,lower'⟩
    · exact .inl (first ▸ second)
    · exact .inr ⟨first.trans second,Nat.le_trans lower lower'⟩

theorem Early.later {n : Name} {p q : Point} (early : Early tree n p) (later : Later tree p q) :
    Early tree n q := by
  intro b at_
  rcases early b at_ with before | ⟨rfl,lower⟩
  · rcases later with later | ⟨same,_⟩
    · exact .inl (Nat.lt_trans before later)
    · exact .inl (same ▸ before)
  · rcases later with later | ⟨same,lower'⟩
    · exact .inl later
    · exact .inr ⟨same,by omega⟩

theorem early_of_dominates {n : Name} {p : Point} (above : dominates tree n p = true)
    (reachable : function.graph.Reachable p.block) : Early tree n p := by
  intro b at_
  rcases (dominates_iff tree at_ p).mp above with same | ⟨apart,above⟩
  · exact .inr same
  · exact .inl (tree.index_above ⟨above,apart⟩ reachable)

theorem not_early_site {n : Name} {p : Point} (at_ : site n = some p) : ¬ Early tree n p := by
  obtain ⟨block,position⟩ := site_block at_
  intro early
  rcases early _ block with before | ⟨_,lower⟩
  · exact Nat.lt_irrefl _ before
  · omega

/-- What the walk meets between two points next to each other. -/
theorem Early.before_next {n : Name} {p q : Point} (early : Early tree n q)
    (block : q.block = p.block) (position : q.position = p.position + 1) :
    Early tree n p ∨ site n = some p := by
  by_cases here : site n = some p
  · exact .inr here
  · refine .inl fun s at_ => ?_
    rw [← block]
    refine (early s at_).imp id fun same => ⟨same.1,?_⟩
    obtain ⟨r,at',sameBlock,samePosition⟩ := exists_site at_
    have apart : n.position ≠ p.position := fun this => here (at'.trans (congrArg some
      (Point.eq (sameBlock.trans (same.1.trans block)) (samePosition.trans this))))
    omega

theorem Early.reachable_site {n : Name} {p q : Point} (early : Early tree n q)
    (at_ : site n = some p) (reachable : function.graph.Reachable q.block) :
    function.graph.Reachable p.block := by
  rcases early _ (site_block at_).1 with before | ⟨same,_⟩
  · exact tree.reachable_of_index before
  · exact same ▸ reachable

theorem Early.above {a b : Name} {p q : Point} (early : Early tree b q) (at_ : site b = some p)
    (above : Early tree a p) : Early tree a q := by
  obtain ⟨block,position⟩ := site_block at_
  refine above.later ?_
  rcases early _ block with before | ⟨same,lower⟩
  · exact .inl before
  · exact .inr ⟨same,by omega⟩

/-- A definition that the walk has met, and that dominates a later point, dominates
every point between. -/
theorem Early.dominates {n : Name} {p q : Point} (early : Early tree n p) (later : Later tree p q)
    (above : Construction.dominates tree n q = true) (reachable : function.graph.Reachable p.block)
    (reachable' : function.graph.Reachable q.block) : Construction.dominates tree n p = true := by
  cases at_ : n.block? with
  | none => exact dominates_argument tree at_ p
  | some b =>
    rw [dominates_iff tree at_] at above ⊢
    rcases early b at_ with before | same
    · right
      have apart : b ≠ p.block := by
        rintro rfl
        exact Nat.lt_irrefl _ before
      refine ⟨apart,?_⟩
      rcases later with later | ⟨same,_⟩
      · have dominates : function.graph.Dominates b q.block := by
          rcases above with ⟨rfl,_⟩ | ⟨_,above⟩
          · exact Graph.Dominates.refl _
          · exact above
        exact tree.dominates_between before later reachable reachable' dominates
      · rcases above with ⟨same',_⟩ | ⟨_,above⟩
        · exact absurd (same'.trans same.symm) apart
        · exact same ▸ above
    · exact .inl same

end

section
variable (function : Function) (tree : Tree function) (inserted : List (Name × List Nat))

/-- A split result is replaced by the copy that construction makes. -/
def firstVersion (x : Name) : Name :=
  match x with
  | .inst b i => if function.splitResult x then .ssa b i 0 else x
  | _ => x

inductive Version (x : Name) : Name → Prop
  | first : Version x (firstVersion function x)
  | redefined {b i k : Nat} {inst : Inst} (at_ : function.instruction? (.inst b i) = some inst)
    (redefines : (.name x,k) ∈ inst.redefines) : Version x (.ssa b i k)
  | inserted {b : Nat} (member : x ∈ insertedAt inserted b) : Version x (.insertedPhi b x)

/-- The version that the others above the point are above. -/
def Nearest (x : Name) (p : Point) (d : Name) : Prop :=
  Version function inserted x d ∧ dominates tree d p = true ∧
    ∀ w, Version function inserted x w → dominates tree w p = true →
      w = d ∨ ∃ q, site d = some q ∧ dominates tree w q = true

end

end Construction
end Memoir
