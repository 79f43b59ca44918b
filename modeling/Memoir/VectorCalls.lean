import Memoir.RuntimeTranslation
import Memoir.VectorAllocation
import Memoir.VectorRemoval
import Memoir.VectorSplice

/-! Runs of all calls of the vector backend, and the lists that they work on. -/
namespace Memoir
namespace VectorBackend
open Memoir.Runtime (sum difference slice_length slice_getElem? slice_set slice_swapLoop slice_all swapLoop_comm)

variable {α : Type} {type : CType α}

namespace Vector

def read (vec : Vector type) (index : Nat) : Except Fault α := vec.storage.load (sum vec.front index)

def write (vec : Vector type) (index : Nat) (value : α) : Except Fault (Vector type) := do
  let storage ← vec.storage.store (sum vec.front index) value
  return { vec with storage }

end Vector

inductive Call (α : Type)
  | operation (operation : Operation α)
  | read (vec index : Nat)
  | write (vec index : Nat) (value : α)
  | size (vec : Nat)

inductive Answer (α : Type)
  | nothing
  | element (value : α)
  | number (n : Nat)

def State.call (state : State type) : Call α → Except Fault (State type × Answer α)
  | .operation operation => do return (← state.step operation,.nothing)
  | .read vec index => do return (state,.element (← (← state.vector vec).read index))
  | .write vec index value => do return (← state.update vec fun vec => vec.write index value,.nothing)
  | .size vec => do return (state,.number (← state.vector vec).size)

/-- What the calls mean for lists. The elements of a new one are not specified. -/
inductive Means : List (List α) → Call α → List (List α) → Answer α → Prop
  | allocate {lists : List (List α)} {xs : List α} {n : Nat} (small : n < 2 ^ 64) (length : xs.length = n) :
    Means lists (.operation (.allocate n)) (lists ++ [xs]) .nothing
  | insertElement {lists : List (List α)} {xs : List α} {vec start : Nat} {value : α}
      (found : lists[vec]? = some xs) (inside : start ≤ xs.length) :
    Means lists (.operation (.insertElement vec start value)) (lists.set vec (splice xs start 0 [value])) .nothing
  | insertRange {lists : List (List α)} {xs ys : List α} {vec start vec2 first last : Nat}
      (found : lists[vec]? = some xs) (found' : lists[vec2]? = some ys) (inside : start ≤ xs.length)
      (ordered : first ≤ last) (inside' : last ≤ ys.length) :
    Means lists (.operation (.insertRange vec start vec2 first last))
      (lists.set vec (splice xs start 0 (slice ys first last))) .nothing
  | insert {lists : List (List α)} {xs ys : List α} {vec start vec2 : Nat}
      (found : lists[vec]? = some xs) (found' : lists[vec2]? = some ys) (inside : start ≤ xs.length) :
    Means lists (.operation (.insert vec start vec2)) (lists.set vec (splice xs start 0 ys)) .nothing
  | remove {lists : List (List α)} {xs : List α} {vec first last : Nat} (found : lists[vec]? = some xs)
      (ordered : first ≤ last) (inside : last ≤ xs.length) :
    Means lists (.operation (.remove vec first last)) (lists.set vec (splice xs first (last - first) []))
      .nothing
  | swap {lists : List (List α)} {xs : List α} {vec first last start : Nat} (found : lists[vec]? = some xs)
      (ordered : first ≤ last) (inside : last ≤ xs.length) (inside' : start + (last - first) ≤ xs.length) :
    Means lists (.operation (.swap vec first last start))
      (lists.set vec (swapLoop xs first start (last - first))) .nothing
  | read {lists : List (List α)} {xs : List α} {vec index : Nat} {value : α}
      (found : lists[vec]? = some xs) (at_ : xs[index]? = some value) :
    Means lists (.read vec index) lists (.element value)
  | write {lists : List (List α)} {xs : List α} {vec index : Nat} {value : α}
      (found : lists[vec]? = some xs) (inside : index < xs.length) :
    Means lists (.write vec index value) (lists.set vec (xs.set index value)) .nothing
  | size {lists : List (List α)} {xs : List α} {vec : Nat} (found : lists[vec]? = some xs) :
    Means lists (.size vec) lists (.number xs.length)

section
variable {ρ : Type}

def Call.machine : Call (Datum ρ) → Option (Memoir.Operation ρ × List Nat × List Nat)
  | .operation (.insertElement vec start value) => some (.seqInsert (some start) value,[vec],[])
  | .operation (.insert vec start vec2) => some (.seqInsertSeq (some start),[vec],[vec2])
  | .operation (.remove vec first last) => some (.seqRemove (some first) (some last),[vec],[])
  | .operation (.swap vec first last start) =>
    some (.seqSwapWithin (some first) (some last) (some start),[vec],[])
  | .read vec index => some (.indexRead index,[],[vec])
  | .write vec index value => some (.indexWrite index value,[vec],[])
  | .size vec => some (.size,[],[vec])
  | .operation (.allocate _) | .operation (.insertRange _ _ _ _ _) => none

def Answer.datum : Answer (Datum ρ) → Option (Datum ρ)
  | .nothing => none
  | .element value => some value
  | .number n => some (.scalar n)

theorem means_machine {lists after : List (List (Datum ρ))} {call : Call (Datum ρ)}
    {answer : Answer (Datum ρ)} {operation : Memoir.Operation ρ} {mutated read : List Nat}
    (means : Means lists call after answer) (is : call.machine = some (operation,mutated,read)) :
    ∃ outcome,operation.run (mutated.map fun vec => .sequence (lists[vec]?.getD []))
        (read.map fun vec => .sequence (lists[vec]?.getD [])) = some outcome ∧
      outcome.result = answer.datum ∧
      (mutated = [] ∧ after = lists ∨ ∃ vec xs,mutated = [vec] ∧
        outcome.mutated = [some (.sequence xs)] ∧ after = lists.set vec xs) := by
  cases means with
  | allocate => exact nomatch is
  | insertRange => exact nomatch is
  | insertElement found inside =>
    obtain ⟨rfl,rfl,rfl⟩ := is
    refine ⟨.write (.sequence _),?_,rfl,.inr ⟨_,_,rfl,rfl,rfl⟩⟩
    simp [Operation.run,found,inside]
  | insert found found' inside =>
    obtain ⟨rfl,rfl,rfl⟩ := is
    refine ⟨.write (.sequence _),?_,rfl,.inr ⟨_,_,rfl,rfl,rfl⟩⟩
    simp [Operation.run,found,found',inside]
  | remove found ordered inside =>
    obtain ⟨rfl,rfl,rfl⟩ := is
    refine ⟨.write (.sequence _),?_,rfl,.inr ⟨_,_,rfl,rfl,rfl⟩⟩
    simp [Operation.run,found,ordered,inside]
  | swap found ordered inside inside' =>
    obtain ⟨rfl,rfl,rfl⟩ := is
    refine ⟨.write (.sequence _),?_,rfl,.inr ⟨_,_,rfl,rfl,rfl⟩⟩
    simp [Operation.run,found,ordered,inside,inside']
  | read found at_ =>
    obtain ⟨rfl,rfl,rfl⟩ := is
    refine ⟨.read _,?_,rfl,.inl ⟨rfl,rfl⟩⟩
    simp [Operation.run,found,at_]
  | write found inside =>
    obtain ⟨rfl,rfl,rfl⟩ := is
    refine ⟨.write (.sequence _),?_,rfl,.inr ⟨_,_,rfl,rfl,rfl⟩⟩
    simp [Operation.run,found,inside]
  | size found =>
    obtain ⟨rfl,rfl,rfl⟩ := is
    refine ⟨.read _,?_,rfl,.inl ⟨rfl,rfl⟩⟩
    simp [Operation.run,found]

end

namespace Vector

variable {vec : Vector type} {start first last : Nat}

theorem insertElementInPlace_contents (bounded : vec.Bounded) (inside : start ≤ vec.size)
    (room : vec.back + 1 ≤ vec.maxSize) (value : α) :
    ∃ after,vec.insertElementInPlace start value = .ok after ∧ after.Bounded ∧
      after.contents = splice vec.contents start 0 [value] := by
  have small := bounded.maxSize_lt
  have size := bounded.size_eq
  have upper := bounded.2
  obtain ⟨startIdx,ordered,_⟩ := bounded.startIdx_eq inside
  have back : sum vec.back 1 = vec.back + 1 := sum_eq (by omega)
  have shifted := slice_insert vec.storage.elements [value] (Nat.le_add_right vec.front start) ordered
    (room.trans_eq bounded.whole.symm)
  have taken := contents_take vec (show start ≤ vec.back - vec.front by omega)
  have dropped := bounded.contents_drop start
  -- the tail is moved unless it is empty; then the move is one of no elements
  obtain ⟨moved,copied,length,elements⟩ : ∃ moved : Buffer type,
      (if sum vec.front start < vec.back then
        vec.storage.copy (sum (sum vec.front start) 1) vec.storage.elements (sum vec.front start)
          (difference vec.size start)
      else .ok vec.storage) = .ok moved ∧ moved.length = vec.maxSize ∧
        moved.elements = splice vec.storage.elements (vec.front + start + 1)
          (vec.back - (vec.front + start)) (slice vec.storage.elements (vec.front + start) vec.back) := by
    obtain ⟨moved,copied,length,elements⟩ := bounded.moveTail inside room
    by_cases before : sum vec.front start < vec.back
    · exact ⟨moved,by rw [if_pos before,copied],length,elements⟩
    · refine ⟨vec.storage,if_neg before,bounded.whole,?_⟩
      have none : vec.back - (vec.front + start) = 0 := by omega
      rw [none]
      simp [slice,none,splice]
  obtain ⟨stored,written,length',elements'⟩ :=
    Buffer.store_of_lt value (show sum vec.front start < moved.length by omega)
  refine ⟨⟨vec.front,vec.back + 1,vec.maxSize,stored⟩,?_,
    ⟨Nat.le_add_right_of_le bounded.1,room,length'.trans length⟩,?_⟩
  · unfold insertElementInPlace
    dsimp only
    split_ifs at copied ⊢ with before
    · rw [copied,ok_bind,written,ok_bind,back]
      rfl
    · rw [copied,ok_bind,written,ok_bind,back]
      rfl
  · have place : vec.front + start < moved.elements.length := by
      change _ < moved.length
      omega
    have set_ : stored.elements = splice moved.elements (vec.front + start) 1 [value] := by
      rw [elements',startIdx,List.set_eq_take_append_cons_drop,if_pos place]
      simp [splice]
    have parts : splice vec.contents start 0 [value] =
        vec.contents.take start ++ [value] ++ vec.contents.drop start := rfl
    rw [parts,taken,dropped,← shifted,List.length_singleton,← elements,← set_]
    rfl

theorem insertElementFresh_contents (bounded : vec.Bounded) (full : vec.size = vec.maxSize)
    (some : 0 < vec.maxSize) (fits : type.Fits (2 * vec.maxSize)) (value : α) :
    ∃ after,vec.insertElementFresh value (2 * vec.maxSize) = .ok after ∧ after.Bounded ∧
      after.contents = value :: vec.contents := by
  have small := fits.small
  have size := bounded.size_eq
  have upper := bounded.2
  have lower := bounded.1
  have front : vec.front = 0 := by omega
  have back : vec.back = vec.maxSize := by omega
  have source : 0 + vec.maxSize ≤ vec.storage.elements.length :=
    Nat.le_of_eq ((Nat.zero_add _).trans bounded.whole.symm)
  have after : sum vec.maxSize 1 = vec.maxSize + 1 := sum_eq (by omega)
  have whole : vec.contents = slice vec.storage.elements 0 (0 + vec.maxSize) := by
    rw [contents,front,back,Nat.zero_add]
  have length := bounded.contents_length
  obtain ⟨storage,allocated,capacity⟩ := Buffer.malloc_of_fits fits
  unfold insertElementFresh
  simp only [full,front,allocated,ok_bind,after]
  rw [full] at length
  generalize vec.maxSize = n at *
  rw [difference_eq (by omega) (by omega),sum_eq (by omega),sum_eq (by omega),sum_eq (by omega),
    Nat.zero_add]
  have middle : (2 * n - (n + 1)) / 2 + 1 + n ≤ 2 * n := by omega
  generalize (2 * n - (n + 1)) / 2 = place at *
  obtain ⟨stored,written,length',elements⟩ :=
    Buffer.store_of_lt value (show place < storage.length by omega)
  obtain ⟨final,copied,length'',elements'⟩ :=
    Buffer.copy_of_bounds (show place + 1 + n ≤ stored.length by omega) source
  refine ⟨⟨place,place + (n + 1),2 * n,final⟩,by rw [written,ok_bind,copied]; rfl,
    ⟨Nat.le_add_right _ _,?_,(length''.trans length').trans capacity⟩,?_⟩
  · dsimp only
    omega
  · have inside : place < storage.elements.length := by
      change _ < storage.length
      omega
    have set_ : stored.elements = splice storage.elements place 1 [value] := by
      rw [elements,List.set_eq_take_append_cons_drop,if_pos inside]
      simp [splice]
    have room : place + [value].length + vec.contents.length ≤ storage.elements.length := by
      rw [length]
      change place + 1 + n ≤ storage.length
      omega
    have both := slice_splice_splice storage.elements [value] vec.contents room
    rw [length] at both
    change slice final.elements place (place + (n + 1)) = _
    rw [elements',← whole,set_]
    exact (congrArg (slice _ _) (by rw [List.length_singleton]; omega)).trans both

/-- An element is inserted into the list, or there is no memory. -/
theorem insertElement_contents (bounded : vec.Bounded) (inside : start ≤ vec.size)
    (room : vec.RoomForElement) (value : α) :
    vec.insertElement start value = .error .noMemory ∨
      ∃ after,vec.insertElement start value = .ok after ∧ after.Bounded ∧
        after.contents = splice vec.contents start 0 [value] := by
  have small := bounded.maxSize_lt
  have size := bounded.size_eq
  have upper := bounded.2
  have lower := bounded.1
  have doubled : vec.maxSize <<< 1 % 2 ^ 64 = 2 * vec.maxSize := by
    rw [Nat.shiftLeft_eq]
    omega
  unfold RoomForElement at room
  unfold insertElement
  dsimp only
  rw [sum_eq (by omega),doubled]
  by_cases grows : vec.maxSize < vec.size + 1
  · rw [if_pos grows]
    by_cases fits : type.Fits (2 * vec.maxSize)
    · right
      rcases Nat.eq_zero_or_pos start with rfl | behind
      · rw [if_neg (Nat.lt_irrefl 0)]
        obtain ⟨after,result,bounded',contents⟩ :=
          insertElementFresh_contents bounded (by omega) (by omega) fits value
        refine ⟨after,result,bounded',contents.trans ?_⟩
        simp [splice]
      · obtain ⟨storage,moved,length,same⟩ := vec.storage.realloc_of_fits fits
        have inside' : start ≤ Vector.size { vec with maxSize := 2 * vec.maxSize, storage } := inside
        have room' : vec.back + 1 ≤ 2 * vec.maxSize := by omega
        obtain ⟨after,result,bounded',contents⟩ :=
          insertElementInPlace_contents (bounded.grown (by omega) length) inside' room' value
        refine ⟨after,by rw [if_pos behind,moved]; exact result,bounded',contents.trans ?_⟩
        rw [bounded.contents_realloc]
        intro i below
        apply same i
        rw [bounded.whole]
        exact Nat.lt_min.mpr ⟨below,by omega⟩
    · left
      have whole : type.Fits vec.maxSize := bounded.whole ▸ vec.storage.fits
      have large : type.TooLarge (2 * vec.maxSize) := by
        by_contra small
        exact whole.double ⟨fits,small⟩
      by_cases behind : 0 < start
      · rw [if_pos behind,vec.storage.realloc_noMemory large]
        rfl
      · rw [if_neg behind]
        unfold insertElementFresh
        rw [Buffer.malloc_noMemory large]
        rfl
  · rw [if_neg grows]
    exact .inr (insertElementInPlace_contents bounded inside (by omega) value)

theorem allocate_contents (type : CType α) {n : Nat} (small : n ≤ 2 ^ 63)
    (whole : ¬type.Wraps (nextPow2 (difference n 1))) :
    allocate type n = .error .noMemory ∨
      ∃ vec,allocate type n = .ok vec ∧ vec.Bounded ∧ vec.contents.length = n := by
  have safe := (allocate_safe_iff type (show n < 2 ^ 64 by omega)).mpr ⟨small,whole⟩
  by_cases fits : type.Fits (allocateHeader n).maxSize
  · right
    obtain ⟨vec,allocated⟩ := allocate_of_fits fits
    rw [allocated] at safe
    have bounded : vec.Bounded := safe
    have header := allocate_header allocated
    have front : vec.front = (allocateHeader n).front := congrArg Header.front header
    have back : vec.back = (allocateHeader n).back := congrArg Header.back header
    refine ⟨vec,allocated,bounded,?_⟩
    rw [bounded.contents_length,bounded.size_eq,front,back]
    unfold allocateHeader
    dsimp only
    have half : difference (nextPow2 (difference n 1)) n < 2 ^ 64 := Nat.mod_lt _ (by omega)
    rw [sum_eq (by omega)]
    omega
  · left
    have large : type.TooLarge (nextPow2 (difference n 1)) := by
      by_contra small
      exact whole ⟨fits,small⟩
    unfold allocate
    dsimp only
    rw [Buffer.malloc_noMemory large]
    rfl

/-- A range of another vector is inserted into the list, or there is no memory. -/
theorem insertRange_contents (bounded : vec.Bounded) {src : Vector type} (bounded' : src.Bounded)
    (inside : start ≤ vec.size) (ordered : first ≤ last) (inside' : last ≤ src.size)
    (fits : vec.Fits start src first last) :
    vec.insertRange start (.other src) first last = .error .noMemory ∨
      ∃ after,vec.insertRange start (.other src) first last = .ok after ∧ after.Bounded ∧
        after.contents = splice vec.contents start 0 (slice src.contents first last) := by
  by_cases large : vec.OutOfMemory (last - first)
  · exact .inl (insertRange_outOfMemory bounded ordered (.other src) bounded' inside' large)
  · obtain ⟨room,same⟩ := fits.resolve_left large
    rw [← inserted_iff bounded' inside'] at same
    obtain ⟨after,result,inBuffer,contents⟩ :=
      insertRange_of_room bounded inside ordered src bounded' inside' room large
    exact .inr ⟨after,result,inBuffer,by rw [contents,same]; rfl⟩

theorem Bounded.place (bounded : vec.Bounded) {index : Nat} (inside : index < vec.contents.length) :
    sum vec.front index = vec.front + index ∧ vec.front + index < vec.storage.length := by
  have small := vec.storage.small
  have size := bounded.size_eq
  have upper : vec.back ≤ vec.storage.length := bounded.2.trans_eq bounded.whole.symm
  rw [bounded.contents_length] at inside
  exact ⟨sum_eq (by omega),by omega⟩

theorem read_contents (bounded : vec.Bounded) {index : Nat} {value : α}
    (at_ : vec.contents[index]? = some value) : vec.read index = .ok value := by
  obtain ⟨inside,_⟩ := List.getElem?_eq_some_iff.mp at_
  have found : vec.storage.elements[vec.front + index]? = some value := by
    have size := bounded.size_eq
    have below := inside
    rw [bounded.contents_length] at below
    rw [← at_]
    exact ((slice_getElem? _ _ _ _).trans (if_pos (by omega))).symm
  unfold read Buffer.load
  rw [(bounded.place inside).1,found]

theorem write_contents (bounded : vec.Bounded) {index : Nat} (inside : index < vec.contents.length)
    (value : α) : ∃ after,vec.write index value = .ok after ∧ after.Bounded ∧
      after.contents = vec.contents.set index value := by
  obtain ⟨same,below⟩ := bounded.place inside
  obtain ⟨stored,written,length,elements⟩ := Buffer.store_of_lt value below
  refine ⟨{ vec with storage := stored },?_,⟨bounded.1,bounded.2,length.trans bounded.whole⟩,?_⟩
  · unfold write
    rw [same,written]
    rfl
  · change slice stored.elements vec.front vec.back = _
    rw [elements,slice_set]
    rfl

theorem swapLoop_elements {storage : Buffer type} {idx count : Nat}
    (bound : first + (idx + count) ≤ storage.length) (bound' : start + (idx + count) ≤ storage.length) :
    ∃ after,swapLoop storage first start idx count = .ok after ∧ after.length = storage.length ∧
      after.elements = Memoir.swapLoop storage.elements (start + idx) (first + idx) count := by
  induction count generalizing storage idx with
  | zero => exact ⟨storage,rfl,rfl,rfl⟩
  | succ count ih =>
    have small := storage.small
    have below : start + idx < storage.elements.length := by
      change _ < storage.length
      omega
    have below' : first + idx < storage.elements.length := by
      change _ < storage.length
      omega
    obtain ⟨stored,written,length,elements⟩ := Buffer.store_of_lt storage.elements[first + idx] below
    obtain ⟨stored',written',length',elements'⟩ :=
      Buffer.store_of_lt storage.elements[start + idx] (show first + idx < stored.length by omega)
    obtain ⟨after,swapped,length'',elements''⟩ :=
      ih (show first + (idx + 1 + count) ≤ stored'.length by omega) (by omega)
    refine ⟨after,?_,by omega,?_⟩
    · unfold swapLoop Buffer.load
      rw [sum_eq (by omega),sum_eq (by omega),List.getElem?_eq_getElem below,
        List.getElem?_eq_getElem below',ok_bind,ok_bind,written,ok_bind,written',ok_bind]
      exact swapped
    · rw [elements'',elements',elements,Memoir.swapLoop,swapAt,List.getElem?_eq_getElem below,
        List.getElem?_eq_getElem below']
      rfl

theorem swap_contents (bounded : vec.Bounded) (ordered : first ≤ last) (inside : last ≤ vec.size)
    (inside' : start + (last - first) ≤ vec.size) :
    ∃ after,vec.swap first last start = .ok after ∧ after.Bounded ∧
      after.contents = Memoir.swapLoop vec.contents first start (last - first) := by
  have small := vec.storage.small
  have size := bounded.size_eq
  have upper : vec.back ≤ vec.storage.length := bounded.2.trans_eq bounded.whole.symm
  have lower := bounded.1
  obtain ⟨after,swapped,length,elements⟩ := swapLoop_elements
    (show first + vec.front + (0 + (last - first)) ≤ vec.storage.length by omega)
    (show start + vec.front + (0 + (last - first)) ≤ vec.storage.length by omega)
  refine ⟨{ vec with storage := after },?_,⟨lower,bounded.2,length.trans bounded.whole⟩,?_⟩
  · unfold swap
    rw [difference_eq ordered (by omega),sum_eq (by omega),sum_eq (by omega),swapped]
    rfl
  · change slice after.elements vec.front vec.back = _
    rw [elements,Nat.add_zero,Nat.add_zero,Nat.add_comm start,Nat.add_comm first,
      slice_swapLoop _ _ _ _ _ _ (by omega) (by omega),swapLoop_comm]
    rfl

end Vector

namespace State

/-- The lists that the vectors stand for. -/
def lists (state : State type) : List (List α) := state.map Vector.contents

def Keeps (state : State type) : Call α → Prop
  | .operation (.allocate n) => n ≤ 2 ^ 63 ∧ ¬type.Wraps (nextPow2 (difference n 1))
  | .operation (.insertElement vec _ _) => ∀ v,state[vec]? = some v → v.RoomForElement
  | .operation (.insertRange vec start vec2 first last) => vec ≠ vec2 ∧
    ∀ v v2,state[vec]? = some v → state[vec2]? = some v2 → v.Fits start v2 first last
  | .operation (.insert vec start vec2) => vec ≠ vec2 ∧
    ∀ v v2,state[vec]? = some v → state[vec2]? = some v2 → v.Fits start v2 0 v2.size
  | .operation (.remove vec first last) => ∀ v,state[vec]? = some v → v.TailInPlace first last
  | .operation (.swap _ _ _ _) | .read _ _ | .write _ _ _ | .size _ => True

/-- The call does what it means for lists, unless there is no memory for a buffer. -/
def Obeys (state : State type) (call : Call α) : Prop :=
  state.call call = .error .noMemory ∨
    ∃ after answer,state.call call = .ok (after,answer) ∧ after.Bounded ∧
      Means state.lists call after.lists answer

variable {state : State type} {call : Call α} {vec : Nat} {xs : List α}

theorem vector_found {v : Vector type} (found : state[vec]? = some v) : state.vector vec = .ok v := by
  unfold vector
  rw [found]

theorem lists_found (bounded : state.Bounded) (found : state.lists[vec]? = some xs) :
    ∃ v,state[vec]? = some v ∧ v.Bounded ∧ v.contents = xs ∧ v.size = xs.length := by
  unfold lists at found
  rw [List.getElem?_map] at found
  obtain ⟨v,there,rfl⟩ := Option.map_eq_some_iff.mp found
  have inside := bounded.found there
  exact ⟨v,there,inside,rfl,inside.contents_length.symm⟩

/-- One vector is replaced. -/
theorem update_obeys (bounded : state.Bounded) {v : Vector type} (found : state[vec]? = some v)
    (operation : Vector type → Except Fault (Vector type))
    (does : operation v = .error .noMemory ∨ ∃ v',operation v = .ok v' ∧ v'.Bounded ∧ v'.contents = xs)
    (is : state.call call = state.update vec operation >>= fun after => .ok (after,.nothing))
    (means : Means state.lists call (state.lists.set vec xs) .nothing) : state.Obeys call := by
  have updated : state.update vec operation = operation v >>= fun after => .ok (state.set vec after) := by
    rw [update,vector_found found]
    rfl
  unfold Obeys
  rw [is,updated]
  rcases does with noMemory | ⟨v',result,bounded',rfl⟩
  · left
    rw [noMemory]
    rfl
  · refine .inr ⟨state.set vec v',.nothing,by rw [result]; rfl,fun other member => ?_,?_⟩
    · rcases List.mem_or_eq_of_mem_set member with member | rfl
      · exact bounded other member
      · exact bounded'
    · unfold lists at means ⊢
      rwa [List.map_set]

theorem allocate_obeys (bounded : state.Bounded) {n : Nat} (small : n ≤ 2 ^ 63)
    (enough : ¬type.Wraps (nextPow2 (difference n 1))) : state.Obeys (.operation (.allocate n)) := by
  have called : state.call (.operation (.allocate n)) =
      allocate type n >>= fun vec => .ok (state ++ [vec],.nothing) := by
    change ((allocate type n >>= fun vec => .ok (state ++ [vec])) >>= fun after =>
      .ok (after,Answer.nothing)) = _
    cases allocate type n <;> rfl
  unfold Obeys
  rw [called]
  rcases Vector.allocate_contents type small enough with noMemory | ⟨v,result,bounded',length⟩
  · left
    rw [noMemory]
    rfl
  · refine .inr ⟨state ++ [v],.nothing,by rw [result]; rfl,fun other member => ?_,?_⟩
    · rcases List.mem_append.mp member with member | member
      · exact bounded other member
      · exact List.mem_singleton.mp member ▸ bounded'
    · have whole : lists (state ++ [v]) = state.lists ++ [v.contents] := List.map_append
      rw [whole]
      exact .allocate (by omega) length

/-- Every call that lists have means the same for the buffers. -/
theorem call_obeys (bounded : state.Bounded) {lists : List (List α)} {answer : Answer α}
    (means : Means state.lists call lists answer) (keeps : state.Keeps call) : state.Obeys call := by
  generalize given : state.lists = before at means
  cases means with
  | allocate small length => exact allocate_obeys bounded keeps.1 keeps.2
  | insertElement found inside =>
    subst given
    obtain ⟨v,there,inBuffer,rfl,size⟩ := lists_found bounded found
    refine update_obeys bounded there _ ?_ rfl (.insertElement found inside)
    exact Vector.insertElement_contents inBuffer (size ▸ inside) (keeps v there) _
  | insertRange found found' inside ordered inside' =>
    subst given
    obtain ⟨distinct,fits⟩ := keeps
    obtain ⟨v,there,inBuffer,rfl,size⟩ := lists_found bounded found
    obtain ⟨v2,there',inBuffer',rfl,size'⟩ := lists_found bounded found'
    refine update_obeys bounded there (fun v => v.insertRange _ (.other v2) _ _)
      (Vector.insertRange_contents inBuffer inBuffer' (size ▸ inside) ordered (size' ▸ inside')
        (fits v v2 there there')) ?_ (.insertRange found found' inside ordered inside')
    change ((state.source _ _ >>= fun source => _) >>= _) = _
    rw [source_eq there',sourceOf,if_neg distinct.symm]
    rfl
  | insert found found' inside =>
    subst given
    obtain ⟨distinct,fits⟩ := keeps
    obtain ⟨v,there,inBuffer,rfl,size⟩ := lists_found bounded found
    obtain ⟨v2,there',inBuffer',rfl,size'⟩ := lists_found bounded found'
    have inserts := Vector.insertRange_contents inBuffer inBuffer' (size ▸ inside) (Nat.zero_le _)
      (le_refl _) (fits v v2 there there')
    have whole : slice v2.contents 0 v2.size = v2.contents := by
      rw [size']
      exact slice_all _
    rw [whole] at inserts
    refine update_obeys bounded there (fun v => v.insertRange _ (.other v2) 0 v2.size) inserts ?_
      (.insert found found' inside)
    change ((state.source _ _ >>= fun source => _) >>= _) = _
    rw [source_eq there',sourceOf,if_neg distinct.symm]
    rfl
  | remove found ordered inside =>
    subst given
    obtain ⟨v,there,inBuffer,rfl,size⟩ := lists_found bounded found
    refine update_obeys bounded there _ ?_ rfl (.remove found ordered inside)
    obtain ⟨v',result,bounded',contents⟩ :=
      (Vector.removes_iff inBuffer ordered (size ▸ inside)).mpr (keeps v there)
    refine .inr ⟨v',result,bounded',contents.trans ?_⟩
    simp [splice,Nat.add_sub_of_le ordered]
  | swap found ordered inside inside' =>
    subst given
    obtain ⟨v,there,inBuffer,rfl,size⟩ := lists_found bounded found
    refine update_obeys bounded there _ ?_ rfl (.swap found ordered inside inside')
    exact .inr (Vector.swap_contents inBuffer ordered (size ▸ inside) (size ▸ inside'))
  | write found inside =>
    subst given
    obtain ⟨v,there,inBuffer,rfl,size⟩ := lists_found bounded found
    refine update_obeys bounded there _ ?_ rfl (.write found inside)
    exact .inr (Vector.write_contents inBuffer inside _)
  | read found at_ =>
    subst given
    obtain ⟨v,there,inBuffer,rfl,size⟩ := lists_found bounded found
    refine .inr ⟨state,_,?_,bounded,.read found at_⟩
    change (state.vector _ >>= fun v => v.read _ >>= fun value => .ok (state,Answer.element value)) = _
    rw [vector_found there,ok_bind,Vector.read_contents inBuffer at_]
    rfl
  | size found =>
    subst given
    obtain ⟨v,there,inBuffer,rfl,size⟩ := lists_found bounded found
    refine .inr ⟨state,_,?_,bounded,.size found⟩
    change (state.vector _ >>= fun v => .ok (state,Answer.number v.size)) = _
    rw [vector_found there,← size]
    rfl

end State

/-- The calls of a run with their answers: the lists have the calls, and the buffers keep to them. -/
inductive Runs (type : CType α) : List (Call α × Answer α) → State type → Prop
  | start : Runs type [] []
  | call {trace : List (Call α × Answer α)} {state after : State type} {call : Call α} {answer : Answer α}
      (runs : Runs type trace state) (possible : ∃ lists answer,Means state.lists call lists answer)
      (keeps : state.Keeps call) (called : state.call call = .ok (after,answer)) :
    Runs type (trace ++ [(call,answer)]) after

inductive Lists : List (Call α × Answer α) → List (List α) → Prop
  | start : Lists [] []
  | call {trace : List (Call α × Answer α)} {before after : List (List α)} {call : Call α}
      {answer : Answer α} (lists : Lists trace before) (means : Means before call after answer) :
    Lists (trace ++ [(call,answer)]) after

theorem Runs.bounded {trace : List (Call α × Answer α)} {state : State type}
    (runs : Runs type trace state) : state.Bounded := by
  induction runs with
  | start => exact fun vec member => absurd member List.not_mem_nil
  | call runs possible keeps called bounded =>
    obtain ⟨lists,answer,means⟩ := possible
    rcases State.call_obeys bounded means keeps with noMemory | ⟨_,_,result,bounded',_⟩
    · exact nomatch called.symm.trans noMemory
    · obtain ⟨rfl,rfl⟩ := Prod.mk.inj (Except.ok.inj (called.symm.trans result))
      exact bounded'

/-- A run of the buffers is one of lists with the same answers, and after it a call that the lists have
and the buffers keep to fails only for want of memory. -/
theorem runs_lists {trace : List (Call α × Answer α)} {state : State type}
    (runs : Runs type trace state) :
    Lists trace state.lists ∧
      ∀ call,(∃ lists answer,Means state.lists call lists answer) → state.Keeps call → state.Obeys call := by
  constructor
  · induction runs with
    | start => exact .start
    | call runs possible keeps called ih =>
      obtain ⟨lists,answer,means⟩ := possible
      rcases State.call_obeys runs.bounded means keeps with noMemory | ⟨_,_,result,_,means'⟩
      · exact nomatch called.symm.trans noMemory
      · obtain ⟨rfl,rfl⟩ := Prod.mk.inj (Except.ok.inj (called.symm.trans result))
        exact .call ih means'
  · rintro call ⟨lists,answer,means⟩ keeps
    exact State.call_obeys runs.bounded means keeps

/-- A vector of three elements, one more at its end, and a read of that one. -/
theorem fourthByte_lists : Lists [(.operation (.allocate 3),.nothing),
    (.operation (.insertElement 0 3 7),.nothing),(.read 0 3,.element 7)] [[0,0,0,7]] := by
  have run : Runs byte [(.operation (.allocate 3),.nothing),
      (.operation (.insertElement 0 3 7),.nothing),(.read 0 3,.element 7)]
        [⟨0,4,4,⟨[0,0,0,7],by decide⟩⟩] := by
    have made : Runs byte [(.operation (.allocate 3),.nothing)] [⟨0,3,4,⟨[0,0,0,0],by decide⟩⟩] :=
      .call .start ⟨_,_,.allocate (by decide) (rfl : [0,0,0].length = 3)⟩ ⟨by decide,by decide⟩ rfl
    have longer : Runs byte [(.operation (.allocate 3),.nothing),
        (.operation (.insertElement 0 3 7),.nothing)] [⟨0,4,4,⟨[0,0,0,7],by decide⟩⟩] := by
      refine .call made ⟨_,_,.insertElement rfl (by decide)⟩ ?_ rfl
      intro v found
      exact Option.some.inj found ▸ .inl (by decide)
    exact longer.call ⟨_,_,.read rfl rfl⟩ trivial rfl
  exact (runs_lists run).1

end VectorBackend
end Memoir
