import Memoir.VectorRuns

/-! When `remove` takes exactly the elements of the range out of the list of the vector. -/
namespace Memoir
namespace VectorBackend
open Memoir.Runtime (sum difference slice_getElem?)

variable {α : Type} {type : CType α}

namespace Vector

variable {vec after : Vector type} {first last : Nat}

def Removes (vec : Vector type) (first last : Nat) : Prop :=
  ∃ after,vec.remove first last = .ok after ∧ after.Bounded ∧
    after.contents = vec.contents.take first ++ vec.contents.drop last

/-- Removed elements, place by place: the window begins and ends `offset` and `cut` places further
in, and each element that is left is where it is looked for. -/
theorem contents_without (bounded : vec.Bounded) (ordered : first ≤ last) (inside : last ≤ vec.size)
    (length : after.back - after.front = vec.size - (last - first)) :
    after.contents = vec.contents.take first ++ vec.contents.drop last ↔
      (∀ i < first,after.storage.elements[after.front + i]? = vec.storage.elements[vec.front + i]?) ∧
        ∀ i < vec.size - last,after.storage.elements[after.front + first + i]? =
          vec.storage.elements[vec.front + last + i]? := by
  have size := bounded.size_eq
  have whole := bounded.contents_length
  have head : (vec.contents.take first).length = first := List.length_take_of_le (by omega)
  have places (i : Nat) : (vec.contents.take first ++ vec.contents.drop last)[i]? =
      if i < first then vec.storage.elements[vec.front + i]? else
        if i - first < vec.size - last then vec.storage.elements[vec.front + last + (i - first)]?
        else none := by
    rw [List.getElem?_append,head]
    split_ifs with before behind
    · rw [List.getElem?_take_of_lt before]
      exact (slice_getElem? _ _ _ _).trans (if_pos (by omega))
    · rw [List.getElem?_drop,Nat.add_assoc]
      exact (slice_getElem? _ _ _ _).trans (if_pos (by omega))
    · rw [List.getElem?_drop]
      exact (slice_getElem? _ _ _ _).trans (if_neg (by omega))
  have places' (i : Nat) : after.contents[i]? =
      if i < vec.size - (last - first) then after.storage.elements[after.front + i]? else none := by
    rw [← length]
    exact slice_getElem? _ _ _ _
  constructor
  · intro same
    constructor
    · intro i before
      have at_ := congrArg (fun xs => xs[i]?) same
      change after.contents[_]? = _ at at_
      rwa [places,places',if_pos (by omega),if_pos before] at at_
    · intro i behind
      have at_ := congrArg (fun xs => xs[first + i]?) same
      change after.contents[_]? = _ at at_
      rwa [places,places',if_pos (by omega),if_neg (by omega),if_pos (by omega),
        Nat.add_sub_cancel_left,← Nat.add_assoc] at at_
  · rintro ⟨front,behind⟩
    apply List.ext_getElem?
    intro i
    rw [places,places']
    rcases Nat.lt_or_ge i first with before | past
    · rw [if_pos (by omega),if_pos before]
      exact front i before
    · rw [if_neg (show ¬i < first by omega)]
      by_cases below : i - first < vec.size - last
      · rw [if_pos (by omega),if_pos below,← behind _ below]
        congr 1
        omega
      · rw [if_neg (by omega),if_neg below]

/-- The element behind the removed ones when the first bytes of those from beyond the window have been
put over the ones from the first removed on: as many bytes as there are elements to be moved. -/
def overlaidElement (vec : Vector type) (first last i : Nat) : Option α :=
  let removeBack := vec.size - last
  let old := vec.storage.elements[vec.front + first + i]?
  if i < Buffer.touched type removeBack then
    vec.storage.elements[vec.back + (last - first) + i]?.bind fun new =>
      old.map (type.overlay (removeBack - i * type.width) new)
  else old

/-- In the middle, with fewer elements behind than in front: the elements behind are there already. -/
def TailInPlace (vec : Vector type) (first last : Nat) : Prop :=
  0 < first → last < vec.size → vec.size - last < first →
    ∀ i < vec.size - last,vec.overlaidElement first last i = vec.contents[last + i]?

theorem touched_le (type : CType α) (bytes : Nat) : Buffer.touched type bytes ≤ bytes := by
  have positive := type.width_pos
  have wide : bytes * 1 ≤ bytes * type.width := Nat.mul_le_mul_left bytes positive
  apply Nat.lt_succ_iff.mp
  apply (Nat.div_lt_iff_lt_mul positive).mpr
  rw [Nat.succ_mul]
  omega

theorem contents_behind (bounded : vec.Bounded) {i : Nat} (below : i < vec.size - last) :
    vec.contents[last + i]? = vec.storage.elements[vec.front + last + i]? := by
  have size := bounded.size_eq
  rw [Nat.add_assoc]
  exact (slice_getElem? _ _ _ _).trans (if_pos (by omega))

section

variable (bounded : vec.Bounded) (ordered : first ≤ last) (inside : last ≤ vec.size)
include bounded ordered inside

theorem remove_atEnd (atEnd : last = vec.size) : vec.Removes first last := by
  have size := bounded.size_eq
  have lower := bounded.1
  refine ⟨{ vec with back := vec.back - (last - first) },?_,⟨?_,?_,bounded.whole⟩,?_⟩
  · rw [remove_eq bounded ordered inside,if_pos atEnd]
  · change vec.front ≤ vec.back - (last - first)
    omega
  · exact Nat.le_trans (Nat.sub_le _ _) bounded.2
  · apply (contents_without bounded ordered inside ?_).mpr
    · refine ⟨fun _ _ => rfl,?_⟩
      intro i behind
      omega
    · change vec.back - (last - first) - vec.front = _
      omega

theorem remove_atHead (before : last < vec.size) (atHead : first = 0) : vec.Removes first last := by
  have size := bounded.size_eq
  have lower := bounded.1
  refine ⟨{ vec with front := vec.front + (last - first) },?_,⟨?_,bounded.2,bounded.whole⟩,?_⟩
  · rw [remove_eq bounded ordered inside,if_neg (by omega),if_pos atHead]
  · change vec.front + (last - first) ≤ vec.back
    omega
  · apply (contents_without bounded ordered inside ?_).mpr
    · subst atHead
      refine ⟨fun i below => absurd below (Nat.not_lt_zero i),fun _ _ => rfl⟩
    · change vec.back - (vec.front + (last - first)) = _
      omega

/-- The elements in front are moved up. -/
theorem remove_head (before : last < vec.size) (behind : 0 < first)
    (fewer : first ≤ vec.size - last) : vec.Removes first last := by
  have size := bounded.size_eq
  have lower := bounded.1
  have upper : vec.back ≤ vec.storage.elements.length := bounded.2.trans_eq bounded.whole.symm
  have fits : vec.front + (last - first) + first ≤ vec.storage.length := by
    unfold Buffer.length
    omega
  have source : vec.front + first ≤ vec.storage.elements.length := by omega
  have count : (slice vec.storage.elements vec.front (vec.front + first)).length =
      vec.front + first - vec.front := Runtime.slice_length _ source
  obtain ⟨storage,copied,length,elements⟩ := Buffer.copy_of_bounds fits source
  refine ⟨⟨vec.front + (last - first),vec.back,vec.maxSize,storage⟩,?_,
    ⟨?_,bounded.2,length.trans bounded.whole⟩,?_⟩
  · rw [remove_eq bounded ordered inside,if_neg (by omega),if_neg (by omega),if_neg (by omega),copied]
    rfl
  · change vec.front + (last - first) ≤ vec.back
    omega
  · apply (contents_without bounded ordered inside ?_).mpr
    · constructor
      · intro i below
        change storage.elements[vec.front + (last - first) + i]? = _
        rw [elements,splice_getElem? _ _ (by omega),if_neg (by omega),count,if_pos (by omega),
          slice_getElem?,if_pos (by omega),Nat.add_sub_cancel_left]
      · intro i below
        change storage.elements[vec.front + (last - first) + first + i]? = _
        rw [elements,splice_getElem? _ _ (by omega),if_neg (by omega),count,if_neg (by omega)]
        congr 1
        omega
    · change vec.back - (vec.front + (last - first)) = _
      omega

theorem remove_tail_eq (before : last < vec.size) (behind : 0 < first) (fewer : vec.size - last < first) :
    vec.remove first last = do
      let storage ← vec.storage.moveBytes (vec.front + first) (vec.back + (last - first))
        (vec.size - last)
      return ⟨vec.front,vec.back - (last - first),vec.maxSize,storage⟩ := by
  rw [remove_eq bounded ordered inside,if_neg (by omega),if_neg (by omega),if_pos fewer]

/-- The elements behind are moved down, from beyond the window and in bytes. -/
theorem remove_tail_moves (before : last < vec.size) (behind : 0 < first)
    (fewer : vec.size - last < first)
    (room : vec.back + (last - first) + Buffer.touched type (vec.size - last) ≤ vec.storage.length) :
    vec.Removes first last ↔
      ∀ i < vec.size - last,vec.overlaidElement first last i = vec.contents[last + i]? := by
  have size := bounded.size_eq
  have lower := bounded.1
  have upper : vec.back ≤ vec.storage.elements.length := bounded.2.trans_eq bounded.whole.symm
  have result := remove_tail_eq bounded ordered inside before behind fewer
  obtain ⟨storage,moved,length,overlaid,kept⟩ :=
    moveBytes_of_bounds (show vec.front + first ≤ _ by omega) room
  have left : Bounded ⟨vec.front,vec.back - (last - first),vec.maxSize,storage⟩ := by
    refine ⟨?_,Nat.le_trans (Nat.sub_le _ _) bounded.2,length.trans bounded.whole⟩
    dsimp only
    omega
  have places : ∀ i,storage.elements[vec.front + first + i]? = vec.overlaidElement first last i := by
    intro i
    unfold overlaidElement
    dsimp only
    split_ifs with reached
    · exact overlaid i reached
    · exact kept _ (.inr (by omega))
  rw [moved,ok_bind] at result
  have removes : vec.Removes first last ↔ contents ⟨vec.front,vec.back - (last - first),vec.maxSize,storage⟩ =
      vec.contents.take first ++ vec.contents.drop last := by
    constructor
    · rintro ⟨after,removed,_,same⟩
      rw [result] at removed
      obtain rfl := Except.ok.inj removed
      exact same
    · intro same
      exact ⟨_,result,left,same⟩
  rw [removes,contents_without bounded ordered inside]
  · constructor
    · rintro ⟨_,same⟩ i below
      rw [← places,contents_behind bounded below]
      exact same i below
    · intro same
      refine ⟨fun i below => kept (vec.front + i) (.inl (by omega)),fun i below => ?_⟩
      rw [← contents_behind bounded below,← same i below]
      exact places i
  · change vec.back - (last - first) - vec.front = _
    omega

/-- What is beyond the buffer is in no element that is left. -/
theorem remove_tail_escapes (before : last < vec.size) (behind : 0 < first)
    (fewer : vec.size - last < first)
    (room : ¬vec.back + (last - first) + Buffer.touched type (vec.size - last) ≤ vec.storage.length) :
    ¬vec.Removes first last ∧
      ¬∀ i < vec.size - last,vec.overlaidElement first last i = vec.contents[last + i]? := by
  have size := bounded.size_eq
  have lower := bounded.1
  have upper : vec.back ≤ vec.storage.elements.length := bounded.2.trans_eq bounded.whole.symm
  have touched := touched_le type (vec.size - last)
  have result := remove_tail_eq bounded ordered inside before behind fewer
  rw [moveBytes_escapes (by omega) (by omega) room] at result
  constructor
  · rintro ⟨after,removed,_⟩
    rw [result] at removed
    exact nomatch removed
  · intro same
    have some := touched_pos type (show 0 < vec.size - last by omega)
    have last_ := same (Buffer.touched type (vec.size - last) - 1) (by omega)
    unfold Buffer.length at room
    unfold overlaidElement at last_
    dsimp only at last_
    rw [contents_behind bounded (by omega),if_pos (by omega),
      List.getElem?_eq_none (by omega),Option.bind_none] at last_
    have absent := List.getElem?_eq_none_iff.mp last_.symm
    omega

/-- Nothing is accessed beyond the buffer when the elements that are moved are there. -/
theorem remove_tail_iff (before : last < vec.size) (behind : 0 < first)
    (fewer : vec.size - last < first) :
    vec.Removes first last ↔
      ∀ i < vec.size - last,vec.overlaidElement first last i = vec.contents[last + i]? := by
  by_cases room : vec.back + (last - first) + Buffer.touched type (vec.size - last) ≤ vec.storage.length
  · exact remove_tail_moves bounded ordered inside before behind fewer room
  · obtain ⟨fails,differs⟩ := remove_tail_escapes bounded ordered inside before behind fewer room
    exact iff_of_false fails differs

theorem removes_iff : vec.Removes first last ↔ vec.TailInPlace first last := by
  unfold TailInPlace
  by_cases atEnd : last = vec.size
  · exact iff_of_true (remove_atEnd bounded ordered inside atEnd) (by omega)
  by_cases atHead : first = 0
  · exact iff_of_true (remove_atHead bounded ordered inside (by omega) atHead) (by omega)
  by_cases fewer : vec.size - last < first
  · rw [remove_tail_iff bounded ordered inside (by omega) (by omega) fewer]
    constructor
    · intro same _ _ _
      exact same
    · intro same
      exact same (by omega) (by omega) fewer
  · exact iff_of_true (remove_head bounded ordered inside (by omega) (by omega) (by omega)) (by omega)

end

/-- With as many elements in front as behind, those in front are moved. -/
theorem removes_head : Removes (⟨0,3,4,⟨[1,2,3,0],by decide⟩⟩ : Vector byte) 1 2 :=
  (removes_iff (by decide) (by decide) (by decide)).mpr (by unfold TailInPlace; omega)

/-- More elements are in front of the third than behind it. -/
def fourElements : Vector byte := ⟨0,4,8,⟨[1,2,3,4,0,0,0,0],by decide⟩⟩

/-- Instead of the last element, what is behind the window is put in the place of the removed one. -/
theorem fourElements_not_removes :
    fourElements.Bounded ∧ 3 ≤ fourElements.size ∧ ¬fourElements.Removes 2 3 := by
  refine ⟨by decide,by decide,?_⟩
  rintro ⟨after,removed,_,same⟩
  obtain rfl := Except.ok.inj removed
  exact absurd same (by decide)

end Vector

end VectorBackend
end Memoir
