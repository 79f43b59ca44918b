import Memoir.VectorRuns

/-! When `insert_range` of one vector into another is a splice of their lists. -/
namespace Memoir
namespace VectorBackend
open Memoir.Runtime (slice_slice)

variable {α : Type} {type : CType α}

namespace Vector

variable {dst src : Vector type} {start first last : Nat}

theorem Bounded.slice_contents (bounded : src.Bounded) (inside : last ≤ src.size) :
    slice src.contents first last = slice src.storage.elements (src.front + first) (src.front + last) := by
  rw [bounded.size_eq] at inside
  exact slice_slice _ _ _ inside

/-- There is no memory for a new buffer; or there is room, and the elements are inserted at the head
of a new buffer or are the same in the source's buffer from the front of the other vector on. -/
def Fits (dst : Vector type) (start : Nat) (src : Vector type) (first last : Nat) : Prop :=
  dst.OutOfMemory (last - first) ∨
    dst.Room start (.other src) (last - first) ∧
      (dst.maxSize < dst.size + (last - first) ∧ start = 0 ∨
        slice src.storage.elements dst.front (dst.front + (last - first)) = slice src.contents first last)

theorem inserted_iff (bounded : src.Bounded) (inside : last ≤ src.size) :
    dst.inserted start src first last = slice src.contents first last ↔
      dst.maxSize < dst.size + (last - first) ∧ start = 0 ∨
        slice src.storage.elements dst.front (dst.front + (last - first)) =
          slice src.contents first last := by
  unfold inserted
  split_ifs with fresh
  · exact iff_of_true (bounded.slice_contents inside).symm (.inl fresh)
  · rw [or_iff_right fresh]

/-- A buffer that is too short does not hold the elements. -/
theorem Escapes.contents_length {after : Vector type} {size : Nat} (escapes : Escapes size (.ok after)) :
    after.contents.length < size := by
  have short := escapes.1
  unfold Buffer.length at short
  unfold contents slice
  rw [List.length_take,List.length_drop]
  omega

theorem fits_iff (bounded : dst.Bounded) (bounded' : src.Bounded) (inside : start ≤ dst.size)
    (ordered : first ≤ last) (inside' : last ≤ src.size) :
    (dst.insertRange start (.other src) first last = .error .noMemory ∨
        ∃ after,dst.insertRange start (.other src) first last = .ok after ∧
          after.contents = dst.contents.take start ++ slice src.contents first last ++
            dst.contents.drop start) ↔
      dst.Fits start src first last := by
  unfold Fits
  by_cases large : dst.OutOfMemory (last - first)
  · exact iff_of_true (.inl (insertRange_outOfMemory bounded ordered (.other src) bounded' inside' large))
      (.inl large)
  · rw [or_iff_right large]
    by_cases room : dst.Room start (.other src) (last - first)
    · obtain ⟨after,result,_,contents⟩ :=
        insertRange_of_room bounded inside ordered src bounded' inside' room large
      rw [and_iff_right room,result,← inserted_iff bounded' inside']
      constructor
      · rintro (noMemory | ⟨after',same,spliced⟩)
        · exact absurd noMemory nofun
        · obtain rfl := Except.ok.inj same
          rw [contents] at spliced
          exact List.append_cancel_left (List.append_cancel_right spliced)
      · intro same
        exact .inr ⟨after,rfl,by rw [contents,same]⟩
    · have escapes := insertRange_escapes bounded inside ordered (.other src) bounded' inside' room
      refine iff_of_false ?_ fun fits => room fits.1
      rintro (noMemory | ⟨after,result,spliced⟩)
      · rw [noMemory] at escapes
        exact Fault.noConfusion escapes
      · rw [result] at escapes
        have short := escapes.contents_length
        have whole := congrArg List.length spliced
        have range : (slice src.contents first last).length = last - first :=
          Runtime.slice_length _ (bounded'.contents_length.symm ▸ inside')
        rw [List.length_append,List.length_append,List.length_take,List.length_drop,range,
          bounded.contents_length] at whole
        omega

end Vector

namespace State

variable {state : State type} {vec vec2 start first last : Nat} {dst src : Vector type}

/-- The vector that is given back is a splice of the two lists, and the source is as before. A run
out of memory gives no vector back. -/
def Splices (state : State type) (vec start vec2 first last : Nat) (dst src : Vector type) : Prop :=
  state.step (.insertRange vec start vec2 first last) = .error .noMemory ∨
    ∃ after dst',state.step (.insertRange vec start vec2 first last) = .ok after ∧
      after[vec]? = some dst' ∧
      dst'.contents = dst.contents.take start ++ slice src.contents first last ++
        dst.contents.drop start ∧
      after[vec2]? = some src

theorem splices_iff_fits (found : state[vec]? = some dst) (found' : state[vec2]? = some src)
    (distinct : vec ≠ vec2) (bounded : dst.Bounded) (bounded' : src.Bounded)
    (inside : start ≤ dst.size) (ordered : first ≤ last) (inside' : last ≤ src.size) :
    state.Splices vec start vec2 first last dst src ↔ dst.Fits start src first last := by
  rw [← Vector.fits_iff bounded bounded' inside ordered inside']
  have below := (List.getElem?_eq_some_iff.mp found).1
  have source : state.source vec vec2 = .ok (.other src) := by
    rw [source_eq found',sourceOf,if_neg distinct.symm]
  have updated : state.step (.insertRange vec start vec2 first last) =
      dst.insertRange start (.other src) first last >>= fun after => .ok (state.set vec after) := by
    rw [step,source,ok_bind,update,vector,found]
    rfl
  unfold Splices
  rw [updated]
  cases result : dst.insertRange start (.other src) first last with
  | error fault =>
    rw [error_bind]
    apply or_congr
    · exact Iff.of_eq (by simp)
    · exact iff_of_false (by simp) (by simp)
  | ok dst' =>
    rw [ok_bind]
    apply or_congr
    · exact iff_of_false (by simp) (by simp)
    · constructor
      · rintro ⟨after,dst₁,same,found₁,spliced,_⟩
        obtain rfl := Except.ok.inj same
        rw [List.getElem?_set_self below] at found₁
        obtain rfl := Option.some.inj found₁
        exact ⟨_,rfl,spliced⟩
      · rintro ⟨after,same,spliced⟩
        obtain rfl := Except.ok.inj same
        exact ⟨_,_,rfl,List.getElem?_set_self below,spliced,
          (List.getElem?_set_ne distinct).trans found'⟩

end State

def sameFronts : State byte :=
  [⟨1,3,8,⟨[0,1,2,0,0,0,0,0],by decide⟩⟩,⟨1,3,4,⟨[0,8,9,0],by decide⟩⟩]

theorem sameFronts_splices :
    sameFronts.Splices 0 1 1 0 2 ⟨1,3,8,⟨[0,1,2,0,0,0,0,0],by decide⟩⟩
      ⟨1,3,4,⟨[0,8,9,0],by decide⟩⟩ :=
  (State.splices_iff_fits rfl rfl (by decide) (by decide) (by decide) (by decide) (by decide)
    (by decide)).mpr (.inr ⟨.inr ⟨by decide,by decide⟩,.inr rfl⟩)

def apartFronts : State byte := [⟨0,2,4,⟨[1,2,0,0],by decide⟩⟩,⟨1,2,2,⟨[5,7],by decide⟩⟩]

/-- Instead of the element that is left, the removed one is inserted. -/
theorem apartFronts_not_splices :
    ∃ dst src,apartFronts[0]? = some dst ∧ apartFronts[1]? = some src ∧ dst.Bounded ∧ src.Bounded ∧
      2 ≤ dst.size ∧ 1 ≤ src.size ∧ ¬apartFronts.Splices 0 2 1 0 1 dst src := by
  refine ⟨_,_,rfl,rfl,by decide,by decide,by decide,by decide,?_⟩
  rintro (noMemory | ⟨after,dst',stepped,found,spliced,_⟩)
  · exact absurd noMemory nofun
  · obtain rfl := Except.ok.inj stepped
    obtain rfl := Option.some.inj found
    exact absurd spliced (by decide)

end VectorBackend
end Memoir
