import Memoir.Collection
import Mathlib.Data.List.ReduceOption

/-! The references in contents, and that operations make none up. -/
namespace Memoir

variable {ρ σ : Type}

def Datum.references : Datum ρ → List ρ
  | .scalar _ => []
  | .collection reference => [reference]

theorem Datum.map_congr (first second : ρ → σ) (datum : Datum ρ)
    (agree : ∀ reference ∈ datum.references, first reference = second reference) :
    datum.map first = datum.map second := by
  cases datum with
  | scalar word => rfl
  | collection reference =>
    exact congrArg Datum.collection (agree reference (List.mem_singleton.mpr rfl))

def Operation.references : Operation ρ → List ρ
  | .indexWrite _ value | .assocWrite _ value | .seqInsert _ value => value.references
  | _ => []

def Outcome.references (outcome : Outcome ρ) : List ρ :=
  outcome.mutated.reduceOption.flatMap Content.references ++
    outcome.created.toList.flatMap Content.references ++
      outcome.result.toList.flatMap Datum.references

theorem Content.mem_references_map {rename : ρ → σ} {content : Content ρ} {reference : σ}
    (member : reference ∈ (content.map rename).references) :
    ∃ original ∈ content.references, rename original = reference := by
  cases content with
  | sequence elements =>
    obtain ⟨datum,inMap,is⟩ := List.mem_filterMap.mp member
    obtain ⟨original,inElements,rfl⟩ := List.mem_map.mp inMap
    cases original with
    | scalar word => exact absurd is (by simp [Datum.map])
    | collection r => exact ⟨r,List.mem_filterMap.mpr ⟨_,inElements,rfl⟩,Option.some.inj is⟩
  | assoc entries =>
    obtain ⟨entry,inMap,is⟩ := List.mem_filterMap.mp member
    obtain ⟨⟨key,original⟩,inEntries,rfl⟩ := List.mem_map.mp inMap
    cases original with
    | scalar word => exact absurd is (by simp [Datum.map])
    | collection r => exact ⟨r,List.mem_filterMap.mpr ⟨_,inEntries,rfl⟩,Option.some.inj is⟩

theorem Datum.mem_references_map {rename : ρ → σ} {datum : Datum ρ} {reference : σ}
    (member : reference ∈ (datum.map rename).references) :
    ∃ original ∈ datum.references, rename original = reference := by
  cases datum with
  | scalar word => exact absurd member List.not_mem_nil
  | collection r => exact ⟨r,List.mem_singleton.mpr rfl,(List.mem_singleton.mp member).symm⟩

theorem Outcome.mem_references_map {rename : ρ → σ} {outcome : Outcome ρ} {reference : σ}
    (member : reference ∈ (outcome.map rename).references) :
    ∃ original ∈ outcome.references, rename original = reference := by
  simp only [references,map,List.mem_append,List.mem_flatMap,List.reduceOption_mem_iff,
    List.mem_map,Option.mem_toList,Option.map_eq_some_iff] at member ⊢
  rcases member with (⟨_,⟨_,inMutated,old,rfl,rfl⟩,inContent⟩ | ⟨_,⟨old,is,rfl⟩,inContent⟩) |
    ⟨_,⟨old,is,rfl⟩,inContent⟩
  · obtain ⟨original,inOld,same⟩ := Content.mem_references_map inContent
    exact ⟨original,.inl (.inl ⟨old,inMutated,inOld⟩),same⟩
  · obtain ⟨original,inOld,same⟩ := Content.mem_references_map inContent
    exact ⟨original,.inl (.inr ⟨old,is,inOld⟩),same⟩
  · obtain ⟨original,inOld,same⟩ := Datum.mem_references_map inContent
    exact ⟨original,.inr ⟨old,is,inOld⟩,same⟩

section
variable {holds : ρ → Prop}

theorem Datum.lift (datum : Datum ρ) (all : ∀ reference ∈ datum.references, holds reference) :
    ∃ lifted : Datum {reference // holds reference}, lifted.map Subtype.val = datum := by
  cases datum with
  | scalar word => exact ⟨.scalar word,rfl⟩
  | collection reference =>
    exact ⟨.collection ⟨reference,all reference (List.mem_singleton.mpr rfl)⟩,rfl⟩

private theorem lift_list {α β : Type} {f : α → β} {xs : List β} (each : ∀ x ∈ xs, ∃ y, f y = x) :
    ∃ ys : List α, ys.map f = xs := by
  induction xs with
  | nil => exact ⟨[],rfl⟩
  | cons x xs ih =>
    obtain ⟨y,rfl⟩ := each x List.mem_cons_self
    obtain ⟨ys,rfl⟩ := ih fun x member => each x (List.mem_cons_of_mem _ member)
    exact ⟨y :: ys,rfl⟩

theorem Content.lift (content : Content ρ)
    (all : ∀ reference ∈ content.references, holds reference) :
    ∃ lifted : Content {reference // holds reference}, lifted.map Subtype.val = content := by
  cases content with
  | sequence elements =>
    have each : ∀ datum ∈ elements, ∃ lifted : Datum {reference // holds reference},
        lifted.map Subtype.val = datum := by
      intro datum member
      refine datum.lift fun reference inDatum => all reference ?_
      cases datum with
      | scalar word => exact absurd inDatum List.not_mem_nil
      | collection r =>
        obtain rfl := List.mem_singleton.mp inDatum
        exact List.mem_filterMap.mpr ⟨_,member,rfl⟩
    obtain ⟨lifted,same⟩ := lift_list each
    exact ⟨.sequence lifted,congrArg sequence same⟩
  | assoc entries =>
    have each : ∀ entry ∈ entries, ∃ lifted : Word × Datum {reference // holds reference},
        (lifted.1,lifted.2.map Subtype.val) = entry := by
      rintro ⟨key,datum⟩ member
      obtain ⟨lifted,rfl⟩ := datum.lift fun reference inDatum => all reference (by
        cases datum with
        | scalar word => exact absurd inDatum List.not_mem_nil
        | collection r =>
          obtain rfl := List.mem_singleton.mp inDatum
          exact List.mem_filterMap.mpr ⟨_,member,rfl⟩)
      exact ⟨(key,lifted),rfl⟩
    obtain ⟨lifted,same⟩ := lift_list each
    exact ⟨.assoc lifted,congrArg assoc same⟩

theorem Content.lift_all {contents : List (Content ρ)}
    (all : ∀ content ∈ contents, ∀ reference ∈ content.references, holds reference) :
    ∃ lifted : List (Content {reference // holds reference}),
      lifted.map (Content.map Subtype.val) = contents :=
  lift_list fun content member => content.lift (all content member)

theorem Operation.lift (operation : Operation ρ)
    (all : ∀ reference ∈ operation.references, holds reference) :
    ∃ lifted : Operation {reference // holds reference},
      lifted.map Subtype.val = operation := by
  cases operation with
  | indexWrite index value =>
    obtain ⟨value,rfl⟩ := value.lift all
    exact ⟨.indexWrite index value,rfl⟩
  | assocWrite key value =>
    obtain ⟨value,rfl⟩ := value.lift all
    exact ⟨.assocWrite key value,rfl⟩
  | seqInsert index value =>
    obtain ⟨value,rfl⟩ := value.lift all
    exact ⟨.seqInsert index value,rfl⟩
  | seqInsertSeq index => exact ⟨.seqInsertSeq index,rfl⟩
  | seqRemove first last => exact ⟨.seqRemove first last,rfl⟩
  | seqSwap first last toFirst => exact ⟨.seqSwap first last toFirst,rfl⟩
  | seqSwapWithin first last toFirst => exact ⟨.seqSwapWithin first last toFirst,rfl⟩
  | seqSplit first last => exact ⟨.seqSplit first last,rfl⟩
  | assocInsert key => exact ⟨.assocInsert key,rfl⟩
  | assocRemove key => exact ⟨.assocRemove key,rfl⟩
  | indexRead index => exact ⟨.indexRead index,rfl⟩
  | assocRead key => exact ⟨.assocRead key,rfl⟩
  | assocHas key => exact ⟨.assocHas key,rfl⟩
  | size => exact ⟨.size,rfl⟩
  | assocKeys => exact ⟨.assocKeys,rfl⟩
  | seqCopy first last => exact ⟨.seqCopy first last,rfl⟩
  | seqAlloc length => exact ⟨.seqAlloc length,rfl⟩
  | assocAlloc => exact ⟨.assocAlloc,rfl⟩
  | call callee scalars reply => exact ⟨.call callee scalars reply,rfl⟩

/-- An operation moves references, and makes none. -/
theorem Operation.run_references {operation : Operation ρ} {mutated read : List (Content ρ)}
    {outcome : Outcome ρ} (ran : operation.run mutated read = some outcome)
    (given : ∀ reference ∈ operation.references, holds reference)
    (inMutated : ∀ content ∈ mutated, ∀ reference ∈ content.references, holds reference)
    (inRead : ∀ content ∈ read, ∀ reference ∈ content.references, holds reference) :
    ∀ reference ∈ outcome.references, holds reference := by
  obtain ⟨operation,rfl⟩ := operation.lift given
  obtain ⟨mutated,rfl⟩ := Content.lift_all inMutated
  obtain ⟨read,rfl⟩ := Content.lift_all inRead
  rw [Operation.run_map,Option.map_eq_some_iff] at ran
  obtain ⟨lifted,_,rfl⟩ := ran
  intro reference member
  obtain ⟨original,_,rfl⟩ := Outcome.mem_references_map member
  exact original.2

end

end Memoir
