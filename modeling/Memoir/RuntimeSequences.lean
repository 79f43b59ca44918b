import Memoir.RuntimePurity

/-! The immutable and the mutable operations on one sequence. -/
namespace Memoir
namespace Runtime
open Heap

theorem slice_length {α : Type} (xs : List α) {first last : Nat} (bound : last ≤ xs.length) :
    (slice xs first last).length = last - first := by
  simp only [slice,List.length_take,List.length_drop]
  omega

theorem slice_getElem? {α : Type} (xs : List α) (first last i : Nat) :
    (slice xs first last)[i]? = if i < last - first then xs[first + i]? else none := by
  simp only [slice,List.getElem?_take,List.getElem?_drop]

theorem slice_slice {α : Type} (xs : List α) (first last : Nat) {i j : Nat}
    (bound : j ≤ last - first) :
    slice (slice xs first last) i j = slice xs (first + i) (first + j) := by
  apply List.ext_getElem?
  intro p
  simp only [slice_getElem?]
  have same : first + j - (first + i) = j - i := by omega
  rw [same]
  by_cases inside : p < j - i
  · rw [if_pos inside,if_pos inside,if_pos (by omega),Nat.add_assoc]
  · rw [if_neg inside,if_neg inside]

theorem slice_all {α : Type} (xs : List α) : slice xs 0 xs.length = xs := by
  simp [slice]

theorem slice_to {α : Type} (xs : List α) (i : Nat) : slice xs 0 i = xs.take i := by
  simp [slice]

theorem slice_from {α : Type} (xs : List α) (i : Nat) : slice xs i xs.length = xs.drop i := by
  unfold slice
  exact List.take_of_length_le (by simp)

theorem splice_length {α : Type} (xs ys : List α) {index count : Nat}
    (bound : index + count ≤ xs.length) :
    (splice xs index count ys).length = xs.length - count + ys.length := by
  simp only [splice,List.length_append,List.length_take,List.length_drop]
  omega

theorem splice_nothing {α : Type} (xs : List α) (index : Nat) : splice xs index 0 [] = xs := by
  simp [splice]

theorem slice_set {α : Type} (xs : List α) (first last i : Nat) (x : α) :
    slice (xs.set (first + i) x) first last = (slice xs first last).set i x := by
  unfold slice
  rw [List.drop_set,if_neg (by omega),Nat.add_sub_cancel_left,List.take_set]

theorem swapAt_length {α : Type} (xs : List α) (i k : Nat) : (swapAt xs i k).length = xs.length := by
  unfold swapAt
  split <;> simp

theorem swapLoop_length {α : Type} (xs : List α) (i k count : Nat) :
    (swapLoop xs i k count).length = xs.length := by
  induction count generalizing xs i k with
  | zero => rfl
  | succ count ih => rw [swapLoop,ih,swapAt_length]

theorem slice_swapAt {α : Type} (xs : List α) (first last i k : Nat) (inside : i < last - first)
    (inside' : k < last - first) :
    slice (swapAt xs (first + i) (first + k)) first last = swapAt (slice xs first last) i k := by
  unfold swapAt
  rw [slice_getElem?,slice_getElem?,if_pos inside,if_pos inside']
  split
  · rw [slice_set,slice_set]
  · rfl

/-- The loop stays within a window. -/
theorem slice_swapLoop {α : Type} (xs : List α) (first last i k count : Nat)
    (inside : i + count ≤ last - first) (inside' : k + count ≤ last - first) :
    slice (swapLoop xs (first + i) (first + k) count) first last =
      swapLoop (slice xs first last) i k count := by
  induction count generalizing xs i k with
  | zero => rfl
  | succ count ih =>
    rw [swapLoop,swapLoop,← slice_swapAt xs first last i k (by omega) (by omega)]
    exact ih _ (i + 1) (k + 1) (by omega) (by omega)

/-- The next piece of a container that is filled from its start. -/
theorem copyInto_next (filled xs : List Word) {room : Nat} (bound : xs.length ≤ room) :
    copyInto (filled ++ List.replicate room 0) filled.length xs =
      some (filled ++ xs ++ List.replicate (room - xs.length) 0) := by
  unfold copyInto
  rw [if_pos (by simp [bound])]
  simp [splice,List.drop_append,List.drop_replicate]

theorem copyInto_two (xs ys : List Word) : ∃ container,
    copyInto (List.replicate (xs.length + ys.length) 0) 0 xs = some container ∧
      copyInto container xs.length ys = some (xs ++ ys) := by
  have first := copyInto_next [] xs (Nat.le_add_right xs.length ys.length)
  have second := copyInto_next xs ys (Nat.le_refl _)
  rw [Nat.sub_self,List.replicate_zero,List.append_nil] at second
  refine ⟨_,first,?_⟩
  rw [Nat.add_sub_cancel_left,List.nil_append]
  exact second

theorem copyInto_three (xs ys zs : List Word) : ∃ container container',
    copyInto (List.replicate (xs.length + ys.length + zs.length) 0) 0 xs = some container ∧
      copyInto container xs.length ys = some container' ∧
      copyInto container' (xs.length + ys.length) zs = some (xs ++ ys ++ zs) := by
  have first := copyInto_next [] xs (Nat.le_add_right xs.length (ys.length + zs.length))
  have second := copyInto_next xs ys (Nat.le_add_right ys.length zs.length)
  have third := copyInto_next (xs ++ ys) zs (Nat.le_refl _)
  rw [Nat.add_sub_cancel_left] at first second
  rw [Nat.sub_self,List.replicate_zero,List.append_nil,List.length_append] at third
  rw [Nat.add_assoc]
  exact ⟨_,_,first,second,third⟩

/-- A sequence shows a part of a vector. -/
structure Shows (heap : Heap) (sequence : Nat) (w : Window) (vs xs : List Word) : Prop where
  window : heap.window sequence = some w
  vector : heap.vector w.vector = some vs
  ordered : w.first ≤ w.last
  bound : w.last ≤ vs.length
  short : vs.length < endOfSequence
  contents : xs = slice vs w.first w.last

/-- No vector is as long as a `size_t` can say. -/
def Addressable (heap : Heap) : Prop :=
  ∀ handle xs, heap.vector handle = some xs → xs.length < endOfSequence

section
variable {heap : Heap} {sequence : Nat} {w : Window} {vs xs : List Word}

theorem exists_shows (addressable : Addressable heap)
    (found : heap.contents sequence = some (.sequence xs)) : ∃ w vs, Shows heap sequence w vs xs := by
  unfold Heap.contents at found
  cases is : heap.get sequence with
  | none => simp [is] at found
  | some object =>
    rw [is] at found
    cases object with
    | owned contents =>
      obtain rfl := Option.some.inj found
      have isVector : heap.vector sequence = some xs := vector_eq.mpr is
      exact ⟨⟨sequence,0,xs.length⟩,xs,by simp [Heap.window,is],isVector,Nat.zero_le _,Nat.le_refl _,
        addressable _ _ isVector,(slice_all xs).symm⟩
    | view vector first last =>
      obtain ⟨ys,isRange,same⟩ := Option.map_eq_some_iff.mp found
      obtain rfl := Contents.sequence.inj same
      simp only [range,Option.bind_eq_bind,Option.bind_eq_some_iff] at isRange
      obtain ⟨vs,isVector,isRange⟩ := isRange
      split_ifs at isRange with bounds
      exact ⟨⟨vector,first,last⟩,vs,by simp [Heap.window,is],isVector,bounds.1,bounds.2,
        addressable _ _ isVector,(Option.some.inj isRange).symm⟩

namespace Shows

variable (shows_ : Shows heap sequence w vs xs)
include shows_

theorem length : xs.length = w.last - w.first := by
  rw [shows_.contents,slice_length vs shows_.bound]

theorem last : w.last = w.first + xs.length := by
  have length := shows_.length
  have first := shows_.ordered
  omega

theorem short' : xs.length < endOfSequence := by
  have length := shows_.length
  have bound := shows_.bound
  have short := shows_.short
  omega

theorem size : heap.size sequence = some xs.length := by
  have is := shows_.window
  have last := shows_.last
  have short := shows_.short'
  unfold endOfSequence at short
  unfold Heap.window at is
  unfold Heap.size
  split at is
  · rename_i ys found
    obtain rfl := Option.some.inj is
    rw [found]
    simpa using last
  · rename_i found
    obtain rfl := Option.some.inj is
    rw [found]
    simp only [difference,Option.some.injEq] at last ⊢
    omega
  · exact absurd is (by simp)

theorem range {i j : Nat} (ordered : i ≤ j) (bound : j ≤ xs.length) :
    heap.range w.vector (w.first + i) (w.first + j) = some (slice xs i j) := by
  have last := shows_.last
  have inside := shows_.bound
  simp only [Heap.range,shows_.vector,Option.bind_eq_bind,Option.bind_some]
  rw [if_pos ⟨by omega,by omega⟩,shows_.contents,slice_slice _ _ _ (by omega)]

theorem range_to {j : Nat} (bound : j ≤ xs.length) :
    heap.range w.vector w.first (w.first + j) = some (slice xs 0 j) :=
  shows_.range (Nat.zero_le j) bound

theorem range_from {i : Nat} (bound : i ≤ xs.length) :
    heap.range w.vector (w.first + i) w.last = some (slice xs i xs.length) := by
  rw [shows_.last]
  exact shows_.range bound (Nat.le_refl _)

theorem range_all : heap.range w.vector w.first w.last = some xs := by
  rw [shows_.last,shows_.range_to (Nat.le_refl _),slice_all]

theorem resolve {i : Nat} (bound : i ≤ xs.length) : heap.resolve sequence i = some i := by
  have short := shows_.short'
  unfold Heap.resolve
  rw [if_neg (by omega)]

theorem resolve_end : heap.resolve sequence endOfSequence = some xs.length := by
  unfold Heap.resolve
  rw [if_pos rfl,shows_.size]

theorem sequenceInsertElement (value : Word) {index : Nat} (bound : index ≤ xs.length) :
    heap.sequenceInsertElement value sequence index =
      some (heap.allocate (.sequence (splice xs index 0 [value]))) := by
  obtain ⟨_,_,first,second,third⟩ := copyInto_three (slice xs 0 index) [value] (slice xs index xs.length)
  have lengths : (slice xs 0 index).length + [value].length + (slice xs index xs.length).length =
      xs.length + 1 := by
    rw [slice_length xs bound,slice_length xs (Nat.le_refl _),List.length_singleton]
    omega
  rw [lengths] at first
  rw [slice_length xs bound,Nat.sub_zero] at second third
  rw [List.length_singleton] at third
  simp only [Heap.sequenceInsertElement,shows_.size,shows_.resolve bound,shows_.window,
    shows_.range_to bound,shows_.range_from bound,Option.bind_eq_bind,Option.bind_some,first,second,
    third,Option.pure_def]
  simp [splice,slice_to,slice_from]

theorem sequenceInsert {toInsert : Nat} {w' : Window} {vs' ys : List Word}
    (shows' : Shows heap toInsert w' vs' ys) {i index : Nat}
    (resolved : heap.resolve sequence i = some index) (bound : index ≤ xs.length) :
    heap.sequenceInsert toInsert sequence i =
      some (heap.allocate (.sequence (splice xs index 0 ys))) := by
  obtain ⟨_,_,first,second,third⟩ := copyInto_three (slice xs 0 index) ys (slice xs index xs.length)
  have lengths : (slice xs 0 index).length + ys.length + (slice xs index xs.length).length =
      xs.length + ys.length := by
    rw [slice_length xs bound,slice_length xs (Nat.le_refl _)]
    omega
  rw [lengths] at first
  rw [slice_length xs bound,Nat.sub_zero] at second third
  simp only [Heap.sequenceInsert,shows_.size,shows'.size,resolved,shows_.window,shows'.window,
    shows_.range_to bound,shows_.range_from bound,shows'.range_all,Option.bind_eq_bind,
    Option.bind_some,first,second,third,Option.pure_def]
  simp [splice,slice_to,slice_from]

theorem sequenceRemove {i j : Nat} (ordered : i ≤ j) (bound : j ≤ xs.length) :
    heap.sequenceRemove sequence i j =
      some (heap.allocate (.sequence (splice xs i (j - i) []))) := by
  have bound' : i ≤ xs.length := Nat.le_trans ordered bound
  obtain ⟨_,first,second⟩ := copyInto_two (slice xs 0 i) (slice xs j xs.length)
  have short := shows_.short'
  unfold endOfSequence at short
  have lengths : (slice xs 0 i).length + (slice xs j xs.length).length =
      difference xs.length (difference j i) := by
    rw [slice_length xs bound',slice_length xs (Nat.le_refl _)]
    simp only [difference]
    omega
  rw [lengths] at first
  rw [slice_length xs bound',Nat.sub_zero] at second
  simp only [Heap.sequenceRemove,shows_.size,shows_.resolve bound,shows_.resolve bound',shows_.window,
    shows_.range_to bound',shows_.range_from bound,Option.bind_eq_bind,Option.bind_some,first,second,
    Option.pure_def]
  simp [splice,slice_to,slice_from,Nat.add_sub_cancel' ordered]

theorem sequenceSwapWithin {i j k : Nat} (ordered : i ≤ j) (bound : j ≤ xs.length)
    (bound' : k + (j - i) ≤ xs.length) :
    heap.sequenceSwapWithin sequence i j k =
      some (heap.allocate (.sequence (swapLoop xs i k (rounds (j - i))))) := by
  have first := copyInto_next [] xs (Nat.le_refl _)
  rw [Nat.sub_self,List.replicate_zero,List.append_nil,List.nil_append,List.nil_append,
    List.length_nil] at first
  have short := shows_.short'
  unfold endOfSequence at short
  have few : rounds (j - i) ≤ j - i := Nat.min_le_left _ _
  simp only [Heap.sequenceSwapWithin,shows_.size,shows_.resolve (Nat.le_trans ordered bound),
    shows_.resolve bound,shows_.resolve (Nat.le_trans (Nat.le_add_right k _) bound'),shows_.window,
    shows_.range_all,Option.bind_eq_bind,Option.bind_some,first]
  rw [if_pos ⟨ordered,by simp only [sum]; omega⟩,if_pos ⟨by omega,by omega⟩]
  rfl

theorem erase {i j : Nat} (ordered : i ≤ j) (bound : j ≤ xs.length) :
    heap.erase sequence i j = some (heap.write w.vector
      (.sequence (splice vs (w.first + i) (j - i) []))) := by
  have last := shows_.last
  have inside := shows_.bound
  simp only [Heap.erase,shows_.window,shows_.vector,Option.bind_eq_bind,Option.bind_some]
  rw [if_pos ⟨by omega,by omega⟩,Nat.add_comm i,Nat.add_comm j,Nat.add_sub_add_left]

theorem mutSequenceInsertElement (value : Word) {index : Nat} (bound : index ≤ xs.length) :
    heap.mutSequenceInsertElement value sequence index = some (heap.write w.vector
      (.sequence (splice vs (w.first + index) 0 [value]))) := by
  have last := shows_.last
  have inside := shows_.bound
  simp only [Heap.mutSequenceInsertElement,shows_.window,shows_.vector,Option.bind_eq_bind,
    Option.bind_some]
  rw [if_pos (by omega),Nat.add_comm index]

theorem mutSequenceInsert {toInsert : Nat} {w' : Window} {vs' ys : List Word}
    (shows' : Shows heap toInsert w' vs' ys) {index : Nat} (bound : index ≤ xs.length) :
    heap.mutSequenceInsert toInsert sequence index =
      if w.vector = w'.vector then none
      else some (heap.write w.vector (.sequence (splice vs (w.first + index) 0 ys))) := by
  have last := shows_.last
  have inside := shows_.bound
  simp only [Heap.mutSequenceInsert,shows_.window,shows_.vector,shows'.window,shows'.range_all,
    Option.bind_eq_bind,Option.bind_some]
  rw [Nat.add_comm index]
  split_ifs with both same same
  · exact absurd same both.2
  · rfl
  · rfl
  · exact absurd ⟨by omega,same⟩ both

theorem mutSequenceSwapWithin {i j k : Nat} (ordered : i ≤ j) (bound : j ≤ xs.length)
    (bound' : k + (j - i) ≤ xs.length) :
    heap.mutSequenceSwapWithin sequence i j k = some (heap.write w.vector
      (.sequence (swapLoop vs (w.first + i) (w.first + k) (rounds (j - i))))) := by
  have last := shows_.last
  have inside := shows_.bound
  have short := shows_.short'
  unfold endOfSequence at short
  have few : rounds (j - i) ≤ j - i := Nat.min_le_left _ _
  simp only [Heap.mutSequenceSwapWithin,shows_.size,shows_.window,shows_.vector,Option.bind_eq_bind,
    Option.bind_some]
  rw [if_pos ⟨ordered,by simp only [sum]; omega⟩,if_pos ⟨by omega,by omega⟩]
  rfl

theorem own_or_view : (heap.get sequence = some (.owned (.sequence xs)) ∧
    w = ⟨sequence,0,xs.length⟩ ∧ vs = xs) ∨ heap.get sequence = some (.view w.vector w.first w.last) := by
  have is := shows_.window
  have isVector := shows_.vector
  have contents := shows_.contents
  unfold Heap.window at is
  split at is
  · rename_i ys found
    obtain rfl := Option.some.inj is
    obtain rfl : ys = vs := by
      rw [vector_eq,found] at isVector
      exact Contents.sequence.inj (Object.owned.inj (Option.some.inj isVector))
    rw [slice_all] at contents
    subst contents
    exact .inl ⟨found,rfl,rfl⟩
  · rename_i found
    obtain rfl := Option.some.inj is
    exact .inr found
  · exact absurd is (by simp)

theorem written (ys : List Word) : (heap.write w.vector (.sequence ys)).vector w.vector = some ys :=
  vector_eq.mpr (get_write (get_lt (vector_eq.mp shows_.vector)))

theorem contents_eq : heap.contents sequence = some (.sequence xs) := by
  rcases shows_.own_or_view with ⟨own,_,_⟩ | view
  · simp only [Heap.contents,own]
  · simp only [Heap.contents,view,shows_.range_all,Option.map_some]

theorem ne_of_view (view : heap.get sequence = some (.view w.vector w.first w.last)) {handle : Nat}
    {zs : List Word} (isVector : heap.vector handle = some zs) : handle ≠ sequence := by
  rintro rfl
  rw [vector_eq,view] at isVector
  exact absurd isVector (by simp)

/-- A vector of the same length, which the sequence shows as before. -/
theorem rewrite {ys : List Word} (length : ys.length = vs.length) :
    Shows (heap.write w.vector (.sequence ys)) sequence w ys (slice ys w.first w.last) := by
  refine ⟨?_,shows_.written ys,shows_.ordered,length ▸ shows_.bound,length ▸ shows_.short,rfl⟩
  rcases shows_.own_or_view with ⟨own,rfl,rfl⟩ | view
  · simp only [Heap.window,get_write (get_lt own),length]
  · simp only [Heap.window,get_write_ne (shows_.ne_of_view view shows_.vector),view]

theorem rewritten {ys : List Word} (length : ys.length = vs.length) :
    (heap.write w.vector (.sequence ys)).contents sequence =
      some (.sequence (slice ys w.first w.last)) :=
  (shows_.rewrite length).contents_eq

/-- A view shows as many elements as before. -/
theorem view_length (view : heap.get sequence = some (.view w.vector w.first w.last))
    {ys zs : List Word}
    (shown : (heap.write w.vector (.sequence ys)).contents sequence = some (.sequence zs)) :
    zs.length = xs.length := by
  have apart := shows_.ne_of_view view shows_.vector
  simp only [Heap.contents,get_write_ne apart,view,Heap.range,shows_.written ys,Option.bind_eq_bind,
    Option.bind_some] at shown
  split_ifs at shown with bounds
  · obtain rfl := Contents.sequence.inj (Option.some.inj shown)
    rw [slice_length ys bounds.2,shows_.length]
  · exact absurd shown (by simp)

/-- A sequence with a vector of its own shows all of it. -/
theorem own_contents (own : heap.get sequence = some (.owned (.sequence xs))) (ys : List Word) :
    w.first = 0 ∧ vs = xs ∧
      (heap.write w.vector (.sequence ys)).contents sequence = some (.sequence ys) := by
  rcases shows_.own_or_view with ⟨_,rfl,rfl⟩ | view
  · exact ⟨rfl,rfl,by simp only [Heap.contents,get_write (get_lt own)]⟩
  · rw [own] at view
    exact absurd view (by simp)

end Shows

end

/-- The operations on one sequence. -/
inductive Edit
  | insertElement (value : Word) (sequence index : Nat)
  | insert (toInsert sequence index : Nat)
  | remove (sequence i j : Nat)
  | swapWithin (sequence i j k : Nat)

namespace Edit

def sequence : Edit → Nat
  | insertElement _ sequence _ | insert _ sequence _ | remove sequence _ _
  | swapWithin sequence _ _ _ => sequence

def operands : Edit → List Nat
  | insert toInsert sequence _ => [toInsert,sequence]
  | edit => [edit.sequence]

def immutable (heap : Heap) : Edit → Option (Heap × Nat)
  | insertElement value sequence index => heap.sequenceInsertElement value sequence index
  | insert toInsert sequence index => heap.sequenceInsert toInsert sequence index
  | remove sequence i j => heap.sequenceRemove sequence i j
  | swapWithin sequence i j k => heap.sequenceSwapWithin sequence i j k

def inPlace (heap : Heap) : Edit → Option Heap
  | insertElement value sequence index => heap.mutSequenceInsertElement value sequence index
  | insert toInsert sequence index => heap.mutSequenceInsert toInsert sequence index
  | remove sequence i j => heap.mutSequenceRemove sequence i j
  | swapWithin sequence i j k => heap.mutSequenceSwapWithin sequence i j k

def InRange (heap : Heap) (edit : Edit) : Prop :=
  ∃ xs, heap.contents edit.sequence = some (.sequence xs) ∧ match edit with
    | insertElement _ _ index => index ≤ xs.length
    | insert toInsert sequence index => toInsert ≠ sequence ∧ index ≤ xs.length ∧
        ∃ ys, heap.contents toInsert = some (.sequence ys)
    | remove _ i j => i ≤ j ∧ j ≤ xs.length
    | swapWithin _ i j k => i ≤ j ∧ j ≤ xs.length ∧ k + (j - i) ≤ xs.length

/-- The new sequence has the contents that the edit in place leaves, and the immutable
edit leaves its operands as they were. -/
def Agrees (heap : Heap) (edit : Edit) : Prop :=
  ∃ made after xs, edit.immutable heap = some made ∧ edit.inPlace heap = some after ∧
    made.1.contents made.2 = some (.sequence xs) ∧
    after.contents edit.sequence = some (.sequence xs) ∧
    ∀ operand ∈ edit.operands, made.1.contents operand = heap.contents operand

def isView (heap : Heap) (sequence : Nat) : Bool :=
  match heap.get sequence with
  | some (.view _ _ _) => true
  | _ => false

/-- A view keeps its length. A vector is not inserted into itself. -/
def Fits (heap : Heap) : Edit → Prop
  | insertElement _ sequence _ => isView heap sequence = false
  | insert toInsert sequence _ =>
    (heap.window sequence).map Window.vector ≠ (heap.window toInsert).map Window.vector ∧
      (isView heap sequence = false ∨ heap.contents toInsert = some (.sequence []))
  | remove sequence i j => isView heap sequence = false ∨ i = j
  | swapWithin _ _ _ _ => True

end Edit

section
variable {heap : Heap}

theorem allocate_contents (xs : List Word) :
    (heap.allocate (.sequence xs)).1.contents (heap.allocate (.sequence xs)).2 =
      some (.sequence xs) := by
  simp [Heap.allocate,Heap.contents,Heap.get,add]

theorem allocate_unchanged {xs ys : List Word} {collection : Nat}
    (found : heap.contents collection = some (.sequence ys)) :
    (heap.allocate (.sequence xs)).1.contents collection = heap.contents collection := by
  refine ((Extends.allocate heap (.sequence xs)).unchanged collection ?_).1
  unfold Heap.contents at found
  unfold Heap.size
  split at found
  · obtain rfl := Option.some.inj found
    simp_all
  · simp_all
  · exact absurd found (by simp)

namespace Edit

theorem agrees_iff (edit : Edit) {zs : List Word} {after : Heap}
    (made : edit.immutable heap = some (heap.allocate (.sequence zs)))
    (edited : edit.inPlace heap = some after)
    (operands : ∀ operand ∈ edit.operands, ∃ ys, heap.contents operand = some (.sequence ys)) :
    edit.Agrees heap ↔ after.contents edit.sequence = some (.sequence zs) := by
  constructor
  · rintro ⟨made',after',xs,isMade,isAfter,contents,same,_⟩
    obtain rfl := Option.some.inj (made.symm.trans isMade)
    obtain rfl := Option.some.inj (edited.symm.trans isAfter)
    rw [allocate_contents] at contents
    rw [same,contents]
  · intro same
    refine ⟨_,_,zs,made,edited,allocate_contents zs,same,fun operand member => ?_⟩
    obtain ⟨ys,found⟩ := operands operand member
    exact allocate_unchanged found

theorem isView_iff {sequence : Nat} {w : Window} {vs xs : List Word}
    (shows_ : Shows heap sequence w vs xs) :
    (isView heap sequence = false ∧ heap.get sequence = some (.owned (.sequence xs))) ∨
      (isView heap sequence = true ∧ heap.get sequence = some (.view w.vector w.first w.last)) := by
  rcases shows_.own_or_view with ⟨own,_,_⟩ | view
  · exact .inl ⟨by simp [isView,own],own⟩
  · exact .inr ⟨by simp [isView,view],view⟩

section
variable {sequence : Nat} {w : Window} {vs xs : List Word} (shows_ : Shows heap sequence w vs xs)
include shows_

theorem insertElement_agrees_iff (value : Word) {index : Nat} (bound : index ≤ xs.length)
    (found : heap.contents sequence = some (.sequence xs)) :
    (insertElement value sequence index).Agrees heap ↔
      (insertElement value sequence index).Fits heap := by
  rw [agrees_iff (insertElement value sequence index) (shows_.sequenceInsertElement value bound)
    (shows_.mutSequenceInsertElement value bound) (by simp [operands,Edit.sequence,found])]
  simp only [Edit.sequence,Fits]
  rcases isView_iff shows_ with ⟨noView,own⟩ | ⟨isView_,view⟩
  · obtain ⟨first,rfl,contents⟩ := shows_.own_contents own (splice vs (w.first + index) 0 [value])
    rw [first,Nat.zero_add] at contents ⊢
    exact ⟨fun _ => noView,fun _ => contents⟩
  · refine ⟨fun shown => ?_,fun fits => absurd (isView_.symm.trans fits) (by simp)⟩
    have length := shows_.view_length view shown
    rw [splice_length xs [value] bound] at length
    simp at length

theorem insert_agrees_iff {toInsert index : Nat} {w' : Window} {vs' ys : List Word}
    (shows' : Shows heap toInsert w' vs' ys) (bound : index ≤ xs.length)
    (found : heap.contents sequence = some (.sequence xs))
    (found' : heap.contents toInsert = some (.sequence ys)) :
    (insert toInsert sequence index).Agrees heap ↔ (insert toInsert sequence index).Fits heap := by
  have edited := shows_.mutSequenceInsert shows' bound
  have fits_iff : (insert toInsert sequence index).Fits heap ↔
      w.vector ≠ w'.vector ∧ (isView heap sequence = false ∨ ys = []) := by
    simp [Fits,shows_.window,shows'.window,found']
  rw [fits_iff]
  by_cases same : w.vector = w'.vector
  · rw [if_pos same] at edited
    constructor
    · rintro ⟨_,after,_,_,isAfter,_⟩
      exact absurd (edited.symm.trans isAfter) (by simp)
    · exact fun fits => absurd same fits.1
  rw [if_neg same] at edited
  rw [agrees_iff (insert toInsert sequence index)
    (shows_.sequenceInsert shows' (shows_.resolve bound) bound) edited
    (by simp [operands,found,found'])]
  simp only [Edit.sequence]
  rcases isView_iff shows_ with ⟨noView,own⟩ | ⟨isView_,view⟩
  · obtain ⟨first,rfl,contents⟩ := shows_.own_contents own (splice vs (w.first + index) 0 ys)
    rw [first,Nat.zero_add] at contents ⊢
    exact ⟨fun _ => ⟨same,.inl noView⟩,fun _ => contents⟩
  · constructor
    · intro shown
      have length := shows_.view_length view shown
      rw [splice_length xs ys bound] at length
      exact ⟨same,.inr (List.length_eq_zero_iff.mp (by omega))⟩
    · rintro ⟨_,noView | rfl⟩
      · exact absurd (isView_.symm.trans noView) (by simp)
      · rw [splice_nothing,splice_nothing,shows_.rewritten rfl,← shows_.contents]

theorem remove_agrees_iff {i j : Nat} (ordered : i ≤ j) (bound : j ≤ xs.length)
    (found : heap.contents sequence = some (.sequence xs)) :
    (remove sequence i j).Agrees heap ↔ (remove sequence i j).Fits heap := by
  rw [agrees_iff (remove sequence i j) (shows_.sequenceRemove ordered bound)
    (shows_.erase ordered bound) (by simp [operands,Edit.sequence,found])]
  simp only [Edit.sequence,Fits]
  rcases isView_iff shows_ with ⟨noView,own⟩ | ⟨isView_,view⟩
  · obtain ⟨first,rfl,contents⟩ := shows_.own_contents own (splice vs (w.first + i) (j - i) [])
    rw [first,Nat.zero_add] at contents ⊢
    exact ⟨fun _ => .inl noView,fun _ => contents⟩
  · constructor
    · intro shown
      have length := shows_.view_length view shown
      rw [splice_length xs [] (by omega),List.length_nil] at length
      right
      omega
    · rintro (noView | rfl)
      · exact absurd (isView_.symm.trans noView) (by simp)
      · rw [Nat.sub_self,splice_nothing,splice_nothing,shows_.rewritten rfl,← shows_.contents]

theorem swapWithin_agrees {i j k : Nat} (ordered : i ≤ j) (bound : j ≤ xs.length)
    (bound' : k + (j - i) ≤ xs.length) (found : heap.contents sequence = some (.sequence xs)) :
    (swapWithin sequence i j k).Agrees heap := by
  rw [agrees_iff (swapWithin sequence i j k) (shows_.sequenceSwapWithin ordered bound bound')
    (shows_.mutSequenceSwapWithin ordered bound bound') (by simp [operands,Edit.sequence,found])]
  have few : rounds (j - i) ≤ j - i := Nat.min_le_left _ _
  have last := shows_.last
  simp only [Edit.sequence]
  rw [shows_.rewritten (swapLoop_length _ _ _ _),slice_swapLoop _ _ _ _ _ _ (by omega) (by omega),
    ← shows_.contents]

end

/-- The two libraries agree exactly on the edits that fit. -/
theorem agrees_iff_fits (heap : Heap) (addressable : Addressable heap) (edit : Edit)
    (inRange : edit.InRange heap) : edit.Agrees heap ↔ edit.Fits heap := by
  obtain ⟨xs,found,inRange⟩ := inRange
  cases edit with
  | insertElement value sequence index =>
    obtain ⟨w,vs,shows_⟩ := exists_shows addressable found
    exact insertElement_agrees_iff shows_ value inRange found
  | insert toInsert sequence index =>
    obtain ⟨_,bound,ys,found'⟩ := inRange
    obtain ⟨w,vs,shows_⟩ := exists_shows addressable found
    obtain ⟨w',vs',shows'⟩ := exists_shows addressable found'
    exact insert_agrees_iff shows_ shows' bound found found'
  | remove sequence i j =>
    obtain ⟨w,vs,shows_⟩ := exists_shows addressable found
    exact remove_agrees_iff shows_ inRange.1 inRange.2 found
  | swapWithin sequence i j k =>
    obtain ⟨w,vs,shows_⟩ := exists_shows addressable found
    obtain ⟨ordered,bound,bound'⟩ := inRange
    exact ⟨fun _ => trivial,fun _ => swapWithin_agrees shows_ ordered bound bound' found⟩

/-- A vector and a view of its first two elements. -/
def viewed : Heap where
  memory := [some (.owned (.sequence [1,2,3])),some (.view 0 0 2)]
  views := by
    intro handle sequence first last found
    match handle,found with
    | 1,found =>
      obtain ⟨rfl,_,_⟩ := Object.view.inj (Option.some.inj (Option.some.inj found))
      exact Nat.zero_lt_two

theorem viewed_length_le (handle : Nat) (xs : List Word) (found : viewed.vector handle = some xs) :
    xs.length ≤ 3 := by
  match handle with
  | 0 =>
    obtain rfl : [1,2,3] = xs := Option.some.inj found
    exact Nat.le_refl 3
  | 1 => exact absurd found (by simp [Heap.vector,Heap.get,viewed])
  | handle + 2 => exact absurd found (by simp [Heap.vector,Heap.get,viewed])

theorem viewed_addressable : Addressable viewed := by
  intro handle xs found
  have bounded := viewed_length_le handle xs found
  unfold endOfSequence
  omega

theorem agrees_iff_fits_viewed : (remove 0 1 2).Agrees viewed ↔ (remove 0 1 2).Fits viewed :=
  agrees_iff_fits viewed viewed_addressable (remove 0 1 2) ⟨[1,2,3],rfl,by decide,by decide⟩

/-- What is inserted into a view pushes its last element out. -/
theorem viewed_pushes : (insertElement 7 1 0).InRange viewed ∧
    ¬ (insertElement 7 1 0).Agrees viewed := by
  refine ⟨⟨[1,2],rfl,Nat.zero_le 2⟩,?_⟩
  rintro ⟨made,after,xs,isMade,isAfter,contents,same,_⟩
  obtain rfl := Option.some.inj isMade
  obtain rfl := Option.some.inj isAfter
  have immutable : [7,1,2] = xs := Contents.sequence.inj (Option.some.inj contents)
  have inPlace : [7,1] = xs := Contents.sequence.inj (Option.some.inj same)
  exact absurd (immutable.trans inPlace.symm) (by decide)

end Edit

end

end Runtime
end Memoir
