import Memoir.KeyFolding

/-! What the analysis of key folding finds: an associative array is folded onto a collection when
every access that is gathered has a key got from some collection, and the walk from these
collections ends at that allocation alone. -/
namespace Memoir
namespace KeyFolding

theorem mem_of_mapM {α β : Type} {f : α → Option β} {items : List α} {results : List β}
    (ran : items.mapM f = some results) (result : β) :
    result ∈ results ↔ ∃ item ∈ items,f item = some result := by
  induction items generalizing results with
  | nil =>
    obtain rfl := Option.some.inj ran
    simp
  | cons item items ih =>
    simp only [List.mapM_cons,Option.pure_def,Option.bind_eq_bind,Option.bind_eq_some_iff,
      Option.some.injEq] at ran
    obtain ⟨first,found,rest,ran,rfl⟩ := ran
    rw [List.mem_cons,ih ran]
    constructor
    · rintro (rfl | ⟨x,member,found'⟩)
      · exact ⟨item,List.mem_cons_self,found⟩
      · exact ⟨x,List.mem_cons_of_mem _ member,found'⟩
    · rintro ⟨x,member,found'⟩
      rcases List.mem_cons.mp member with rfl | member
      · exact .inl (Option.some.inj (found'.symm.trans found))
      · exact .inr ⟨x,member,found'⟩

/-- Where every item has a result, so has the list. -/
theorem mapM_total {α β : Type} {f : α → Option β} {items : List α}
    (total : ∀ item ∈ items,∃ result,f item = some result) :
    ∃ results,items.mapM f = some results ∧
      ∀ result,result ∈ results ↔ ∃ item ∈ items,f item = some result := by
  have ran : ∃ results,items.mapM f = some results := by
    induction items with
    | nil => exact ⟨[],rfl⟩
    | cons item items ih =>
      obtain ⟨results,ran⟩ := ih fun other member => total other (List.mem_cons_of_mem _ member)
      obtain ⟨result,found⟩ := total item List.mem_cons_self
      exact ⟨result :: results,by simp [ran,found]⟩
  obtain ⟨results,ran⟩ := ran
  exact ⟨results,ran,mem_of_mapM ran⟩

theorem mapM_eq_none {α β : Type} {f : α → Option β} {items : List α} :
    items.mapM f = none ↔ ∃ item ∈ items,f item = none := by
  induction items with
  | nil => simp
  | cons item items ih =>
    rw [List.mapM_cons]
    cases found : f item with
    | none => simp [found]
    | some result =>
      cases rest : items.mapM f with
      | none =>
        obtain ⟨other,member,none⟩ := ih.mp rest
        simp only [Option.bind_eq_bind,Option.bind_some,Option.bind_none,true_iff]
        exact ⟨other,List.mem_cons_of_mem _ member,none⟩
      | some results =>
        have others : ¬∃ other ∈ items,f other = none := fun there => by
          rw [ih.mpr there] at rest
          cases rest
        simp only [Option.bind_eq_bind,Option.bind_some,Option.pure_def,reduceCtorEq,false_iff]
        rintro ⟨other,member,none⟩
        rcases List.mem_cons.mp member with rfl | member
        · rw [found] at none
          cases none
        · exact others ⟨other,member,none⟩

namespace Module

variable {module : Module}

/-- An access that the gathering from an allocation finds. -/
def Accesses (module : Module) (alloc : Location) (inst : Inst) : Prop :=
  inst.accessKey.isSome ∧
    ∃ operand ∈ inst.operands,Worklist.Reached module.followed [.inst alloc] operand

end Module
end KeyFolding
end Memoir
