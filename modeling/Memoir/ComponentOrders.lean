import Mathlib.Data.List.Dedup
import Mathlib.Data.List.Pairwise
import Mathlib.Data.List.Perm.Basic
import Mathlib.Logic.Relation

/-! Topological orders of the strongly connected components of a relation on a list. Each component
begins with the one of its elements that the list has first. -/
namespace Memoir
namespace ComponentOrders
variable {α : Type} {r : α → α → Prop}

def Mutual (r : α → α → Prop) (a b : α) : Prop := Relation.ReflTransGen r a b ∧ Relation.ReflTransGen r b a

theorem Mutual.refl (a : α) : Mutual r a a := ⟨.refl,.refl⟩

theorem Mutual.symm {a b : α} (mutual_ : Mutual r a b) : Mutual r b a := ⟨mutual_.2,mutual_.1⟩

theorem Mutual.trans {a b c : α} (first : Mutual r a b) (second : Mutual r b c) : Mutual r a c :=
  ⟨first.1.trans second.1,second.2.trans first.2⟩

def First (r : α → α → Prop) (list : List α) (a : α) : Prop :=
  ∃ before after,list = before ++ a :: after ∧ ∀ b ∈ before,¬ Mutual r a b

theorem First.mem {list : List α} {a : α} (first : First r list a) : a ∈ list := by
  obtain ⟨before,after,rfl,_⟩ := first
  simp

theorem First.eq {list : List α} {a b : α} (first : First r list a) (other : First r list b)
    (same : Mutual r a b) : a = b := by
  obtain ⟨before,after,isList,none⟩ := first
  obtain ⟨before',after',isList',none'⟩ := other
  rw [isList] at isList'
  rcases List.append_eq_append_iff.mp isList' with ⟨middle,isBefore,isAfter⟩ | ⟨middle,isBefore,isAfter⟩
  · cases middle with
    | nil => exact (List.cons.inj isAfter).1
    | cons head middle =>
      obtain rfl := (List.cons.inj isAfter).1
      exact absurd same.symm (none' a (by simp [isBefore]))
  · cases middle with
    | nil => exact (List.cons.inj isAfter).1.symm
    | cons head middle =>
      obtain rfl := (List.cons.inj isAfter).1
      exact absurd same (none b (by simp [isBefore]))

end ComponentOrders
end Memoir
