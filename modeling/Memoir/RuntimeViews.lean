import Memoir.RuntimeTranslation

/-! Edits and slices through a view, and the same on the list of elements that the view shows. -/
namespace Memoir
namespace Runtime
open Heap

section
variable {α : Type}

theorem set_eq_splice {xs : List α} {i : Nat} (bound : i < xs.length) (x : α) :
    xs.set i x = splice xs i 1 [x] := by
  rw [List.set_eq_take_append_cons_drop,if_pos bound,splice,List.append_assoc]
  rfl

theorem splice_inside (before xs after ys : List α) {i count : Nat} (bound : i + count ≤ xs.length) :
    splice (before ++ xs ++ after) (before.length + i) count ys =
      before ++ splice xs i count ys ++ after := by
  have rest : before.length + i + count - (before ++ xs).length = 0 := by
    rw [List.length_append]
    omega
  have none : before.length + i - (before ++ xs).length = 0 := by
    rw [List.length_append]
    omega
  rw [splice,splice,List.take_append,none,List.take_zero,List.append_nil,List.take_length_add_append,
    List.drop_append,rest,List.drop_zero,Nat.add_assoc,List.drop_length_add_append]
  simp only [List.append_assoc]

theorem take_slice_drop (vs : List α) {first last : Nat} (ordered : first ≤ last) :
    vs.take first ++ slice vs first last ++ vs.drop last = vs := by
  have rest : vs.drop last = (vs.drop first).drop (last - first) := by
    rw [List.drop_drop,Nat.add_sub_cancel' ordered]
  rw [List.append_assoc,slice,rest,List.take_append_drop,List.take_append_drop]

/-- An edit inside a window leaves what is before and behind it. -/
theorem splice_window (vs ys : List α) {first last i count : Nat} (ordered : first ≤ last)
    (bound : last ≤ vs.length) (inside : i + count ≤ last - first) :
    splice vs (first + i) count ys =
      vs.take first ++ splice (slice vs first last) i count ys ++ vs.drop last := by
  have taken : (vs.take first).length = first := by
    rw [List.length_take,Nat.min_eq_left (Nat.le_trans ordered bound)]
  have whole := splice_inside (vs.take first) (slice vs first last) (vs.drop last) ys
    (by rw [slice_length vs bound]; exact inside)
  rwa [take_slice_drop vs ordered,taken] at whole

theorem slice_middle (vs result : List α) {first last : Nat} (ordered : first ≤ last)
    (bound : last ≤ vs.length) (length : result.length = last - first) :
    slice (vs.take first ++ result ++ vs.drop last) first last = result := by
  have taken : (vs.take first).length = first := by
    rw [List.length_take,Nat.min_eq_left (Nat.le_trans ordered bound)]
  rw [slice,List.append_assoc,List.drop_left' taken,List.take_left' length]

end

def toInt64 (n : Int) : Int := n.bmod (2 ^ 64)

/-- The ends of a slice in a vector. -/
def sliceEnds (size : Nat) (left right : Int) : Int × Int :=
  let right := if right < 0 then toInt64 (size + right + 1) else right
  let left := if left < 0 then toInt64 (size + left + 1) else left
  if left > right then (right,left) else (left,right)

def vectorSlice (xs : List Word) (left right : Int) : Option (List Word) :=
  let ends := sliceEnds xs.length left right
  if 0 ≤ ends.1 ∧ ends.2 ≤ xs.length then some (slice xs ends.1.toNat ends.2.toNat) else none

/-- A view adds its bounds to the ends, each its own. -/
def Heap.getSequenceSlice (heap : Heap) (sequence : Nat) (left right : Int) : Option (Heap × Nat) := do
  match ← heap.get sequence with
  | .owned (.sequence xs) => return heap.allocate (.sequence (← vectorSlice xs left right))
  | .view vector first last =>
    let xs ← heap.vector vector
    return heap.allocate (.sequence (← vectorSlice xs (toInt64 (left + first)) (toInt64 (right + last))))
  | _ => none

def Heap.elements (heap : Heap) (collection : Nat) : Option (List Word) :=
  match heap.contents collection with
  | some (.sequence xs) => some xs
  | _ => none

def Window.replace (w : Window) (vs result : List Word) : List Word :=
  vs.take w.first ++ result ++ vs.drop w.last

inductive ViewEdit
  | insertElement (value : Word) (index : Nat)
  | insert (toInsert index : Nat)
  | remove (i j : Nat)
  | append (appended : Nat)
  | write (value : Word) (index : Nat)

namespace ViewEdit

def onList (heap : Heap) (xs : List Word) : ViewEdit → Option (List Word)
  | insertElement value index => if index ≤ xs.length then some (splice xs index 0 [value]) else none
  | insert toInsert index => do
    let ys ← heap.elements toInsert
    if index ≤ xs.length then some (splice xs index 0 ys) else none
  | remove i j => if i ≤ j ∧ j ≤ xs.length then some (splice xs i (j - i) []) else none
  | append appended => do
    let ys ← heap.elements appended
    return xs ++ ys
  | write value index => if index < xs.length then some (xs.set index value) else none

def run (heap : Heap) (view : Nat) : ViewEdit → Option Heap
  | insertElement value index => heap.mutSequenceInsertElement value view index
  | insert toInsert index => heap.mutSequenceInsert toInsert view index
  | remove i j => heap.mutSequenceRemove view i j
  | append appended => heap.mutSequenceAppend view appended
  | write value index => heap.setElement value view [index]

/-- The vector has the edited elements in place of those of the view, and the view shows them. -/
def Refines (heap : Heap) (view : Nat) (edit : ViewEdit) (result : List Word) : Prop :=
  ∃ w vs after,heap.window view = some w ∧ heap.vector w.vector = some vs ∧
    edit.run heap view = some after ∧
    after.vector w.vector = some (w.replace vs result) ∧
    after.elements view = some result

def Fits (heap : Heap) (view : Nat) : ViewEdit → Prop
  | insertElement _ _ => False
  | insert toInsert _ => heap.elements toInsert = some [] ∧
      (heap.window view).map Window.vector ≠ (heap.window toInsert).map Window.vector
  | remove i j => i = j
  | append appended => heap.elements appended = some [] ∧ appended ≠ view ∧
      (heap.window view).map Window.vector ≠ some appended
  | write _ _ => True

end ViewEdit

inductive ViewCall
  | edit (edit : ViewEdit)
  | slice (left right : Int64)

def Alike (vs : List Word) (i j count : Int) : Prop :=
  ∀ p < count.toNat,vs[i.toNat + p]? = vs[j.toNat + p]?

/-- The slice of the view is as long as it should be, and lies where the vector has the same elements. -/
def Window.FitsSlice (w : Window) (vs : List Word) (left right : Int) : Prop :=
  let size : Int := w.last - w.first
  if 0 ≤ left ∧ 0 ≤ right then
    if left ≤ right then size = 0
    else size = 2 * (left - right) ∧ w.last + right ≤ vs.length ∧
      Alike vs (w.first + left) (w.first + right) (left - right)
  else if 0 ≤ left then
    -- the end before the first element of the vector is the one behind its last
    w.first = 0 ∧ w.last + right = -1 ∧ vs.length = 2 * left ∧ Alike vs left 0 left
  else if 0 ≤ right then
    let left' := size + left + 1
    w.first + left < 0 ∧ w.last + right ≤ vs.length ∧
      (vs.length = 2 * size ∨ vs.length = 2 * (size + right - left')) ∧
      Alike vs (min (vs.length + w.first + left + 1) (w.last + right)) (w.first + min left' right)
        (max left' right - min left' right)
  else if 0 ≤ w.first + left then
    if left ≤ right then size = 0
    else size = 2 * (left - right) ∧ Alike vs (w.first + left) (w.last + right + 1) (left - right)
  else if 0 ≤ w.last + right then
    vs.length + 1 = size + 2 * (right - left) ∧
      Alike vs (w.last + right) (w.last + left + 1) (right - left)
  else size + 2 * (left + 1) = 0 ∧ Alike vs (vs.length + left + 1) 0 (size + left + 1)

namespace ViewCall

def onList (heap : Heap) (xs : List Word) : ViewCall → Option (List Word)
  | edit change => change.onList heap xs
  | slice left right => vectorSlice xs left.toInt right.toInt

def Refines (heap : Heap) (view : Nat) (call : ViewCall) (result : List Word) : Prop :=
  match call with
  | edit change => change.Refines heap view result
  | slice left right => ∃ made,heap.getSequenceSlice view left.toInt right.toInt = some made ∧
      made.1.elements made.2 = some result

def Fits (heap : Heap) (view : Nat) : ViewCall → Prop
  | edit change => change.Fits heap view
  | slice left right => ∃ w vs,heap.window view = some w ∧ heap.vector w.vector = some vs ∧
      w.FitsSlice vs left.toInt right.toInt

end ViewCall

/-- No vector has more than `max_size()` elements. -/
def Allocatable (heap : Heap) : Prop :=
  ∀ handle xs,heap.vector handle = some xs → xs.length < 2 ^ 60

theorem Allocatable.addressable {heap : Heap} (allocatable : Allocatable heap) : Addressable heap := by
  intro handle xs isVector
  have short := allocatable handle xs isVector
  unfold endOfSequence
  omega

theorem Heap.elements_eq {heap : Heap} {collection : Nat} {xs : List Word} :
    heap.elements collection = some xs ↔ heap.contents collection = some (.sequence xs) := by
  unfold Heap.elements
  split
  · rename_i ys found
    simp [found]
  · rename_i none
    exact ⟨fun absurd_ => absurd absurd_ (by simp),fun found => absurd found (none xs)⟩

section
variable {heap : Heap} {view : Nat} {w : Window} {vs xs : List Word}

/-- A view of a part of a sequence. -/
theorem Shows.sequenceView {sequence : Nat} (shows_ : Shows heap sequence w vs xs) {i j : Nat}
    (ordered : i ≤ j) (bound : j ≤ xs.length) : ∃ made,heap.sequenceView sequence i j = some made ∧
      made.1.get made.2 = some (.view w.vector (w.first + i) (w.first + j)) ∧
      made.1.elements made.2 = some (slice xs i j) := by
  have last := shows_.last
  have inside := shows_.bound
  have short := shows_.short
  have below := get_lt (vector_eq.mp shows_.vector)
  unfold endOfSequence at short
  have left : sum i w.first = w.first + i := by
    simp only [sum]
    omega
  have right : sum w.first j = w.first + j := by
    simp only [sum]
    omega
  have notEnd : j ≠ endOfSequence := by
    unfold endOfSequence
    omega
  have made : heap.sequenceView sequence i j =
      some (heap.addView w.vector (w.first + i) (w.first + j) below,heap.memory.length) := by
    simp only [Heap.sequenceView,shows_.size,shows_.window,Option.bind_eq_bind,Option.bind_some]
    rw [dif_pos below,if_neg notEnd,left,right]
  have isView : (heap.addView w.vector (w.first + i) (w.first + j) below).get heap.memory.length =
      some (.view w.vector (w.first + i) (w.first + j)) := by
    simp [Heap.get,addView]
  have isVector : (heap.addView w.vector (w.first + i) (w.first + j) below).vector w.vector =
      some vs := by
    rw [← shows_.vector]
    simp only [Heap.vector,Heap.get,addView,List.getElem?_append_left below]
  refine ⟨_,made,isView,?_⟩
  rw [elements_eq]
  simp only [Heap.contents,isView,Heap.range,isVector,Option.bind_eq_bind,Option.bind_some]
  rw [if_pos ⟨by omega,by omega⟩,shows_.contents,slice_slice _ _ _ (by omega)]
  rfl

theorem Shows.setElement (shows_ : Shows heap view w vs xs)
    (isView : heap.get view = some (.view w.vector w.first w.last)) (value : Word) {index : Nat}
    (inside : index < xs.length) : heap.setElement value view [index] =
      some (heap.write w.vector (.sequence (vs.set (w.first + index) value))) := by
  have last := shows_.last
  have bound := shows_.bound
  have short := shows_.short'
  unfold endOfSequence at short
  have length : difference w.last w.first = xs.length := by
    simp only [difference]
    omega
  have inVector : index + w.first < vs.length := by omega
  simp only [Heap.setElement,isView,shows_.vector,List.head?_cons,Option.bind_eq_bind,Option.bind_some,
    length]
  rw [if_pos ⟨inside,inVector⟩,Nat.add_comm index]

namespace ViewEdit

section
variable (shows_ : Shows heap view w vs xs)
  (isView : heap.get view = some (.view w.vector w.first w.last))
include shows_ isView

/-- Where the vector is edited rightly, the view shows it if and only if it keeps its length. -/
theorem refines_iff_length {edit : ViewEdit} {result : List Word}
    (ran : edit.run heap view = some (heap.write w.vector (.sequence (w.replace vs result)))) :
    edit.Refines heap view result ↔ result.length = xs.length := by
  constructor
  · rintro ⟨_,_,after,_,_,ran',_,shown⟩
    obtain rfl := Option.some.inj (ran.symm.trans ran')
    exact shows_.view_length isView (elements_eq.mp shown)
  · intro same
    have length : (w.replace vs result).length = vs.length := by
      have last := shows_.last
      have bound := shows_.bound
      simp only [Window.replace,List.length_append,List.length_take,List.length_drop]
      omega
    refine ⟨w,vs,_,shows_.window,shows_.vector,ran,shows_.written _,elements_eq.mpr ?_⟩
    rw [shows_.rewritten length,Window.replace,slice_middle vs result shows_.ordered shows_.bound]
    rw [same,shows_.length]

theorem insertElement_refines_iff (value : Word) {index : Nat} (inside : index ≤ xs.length) :
    (insertElement value index).Refines heap view (splice xs index 0 [value]) ↔ False := by
  have ran : (insertElement value index).run heap view =
      some (heap.write w.vector (.sequence (w.replace vs (splice xs index 0 [value])))) := by
    rw [run,shows_.mutSequenceInsertElement value inside,
      splice_window vs [value] shows_.ordered shows_.bound (shows_.length ▸ inside),← shows_.contents]
    rfl
  rw [refines_iff_length shows_ isView ran,splice_length xs [value] inside]
  simp

theorem insert_refines_iff {toInsert index : Nat} {ys : List Word} {w' : Window} {vs' : List Word}
    (shows' : Shows heap toInsert w' vs' ys) (inside : index ≤ xs.length) :
    (insert toInsert index).Refines heap view (splice xs index 0 ys) ↔
      (insert toInsert index).Fits heap view := by
  have ran := shows_.mutSequenceInsert shows' inside
  have fits : (insert toInsert index).Fits heap view ↔ ys = [] ∧ w.vector ≠ w'.vector := by
    simp [Fits,elements_eq.mpr shows'.contents_eq,shows_.window,shows'.window]
  rw [fits]
  by_cases same : w.vector = w'.vector
  · rw [if_pos same] at ran
    constructor
    · rintro ⟨_,_,_,_,_,ran',_⟩
      exact absurd (ran.symm.trans ran') (by simp)
    · exact fun fits => absurd same fits.2
  · rw [if_neg same,splice_window vs ys shows_.ordered shows_.bound (shows_.length ▸ inside),
      ← shows_.contents] at ran
    have ran : (insert toInsert index).run heap view =
      some (heap.write w.vector (.sequence (w.replace vs (splice xs index 0 ys)))) := ran
    rw [refines_iff_length shows_ isView ran,splice_length xs ys inside]
    constructor
    · exact fun length => ⟨List.length_eq_zero_iff.mp (by omega),same⟩
    · rintro ⟨rfl,_⟩
      rfl

theorem remove_refines_iff {i j : Nat} (ordered : i ≤ j) (inside : j ≤ xs.length) :
    (remove i j).Refines heap view (splice xs i (j - i) []) ↔ i = j := by
  have length := shows_.length
  have ran : (remove i j).run heap view =
      some (heap.write w.vector (.sequence (w.replace vs (splice xs i (j - i) [])))) := by
    rw [run,mutSequenceRemove,shows_.erase ordered inside,
      splice_window vs [] shows_.ordered shows_.bound (by omega),← shows_.contents]
    rfl
  rw [refines_iff_length shows_ isView ran,splice_length xs [] (by omega),List.length_nil]
  omega

theorem write_refines (value : Word) {index : Nat} (inside : index < xs.length) :
    (write value index).Refines heap view (xs.set index value) := by
  have length := shows_.length
  have bound := shows_.bound
  have ran : (write value index).run heap view =
      some (heap.write w.vector (.sequence (w.replace vs (xs.set index value)))) := by
    rw [run,shows_.setElement isView value inside,set_eq_splice (by omega),
      splice_window vs [value] shows_.ordered shows_.bound (by omega),← shows_.contents,
      ← set_eq_splice inside]
    rfl
  rw [refines_iff_length shows_ isView ran,List.length_set]

theorem append_refines_iff {appended : Nat} {ys : List Word} {w' : Window} {vs' : List Word}
    (shows' : Shows heap appended w' vs' ys) :
    (append appended).Refines heap view (xs ++ ys) ↔ (append appended).Fits heap view := by
  have fits : (append appended).Fits heap view ↔ ys = [] ∧ appended ≠ view ∧ w.vector ≠ appended := by
    simp [Fits,elements_eq.mpr shows'.contents_eq,shows_.window]
  rw [fits]
  constructor
  · rintro ⟨_,_,after,_,_,ran,_,shown⟩
    have distinct : view ≠ appended := by
      rintro rfl
      obtain ⟨filled,rfl⟩ := shows_.append_deletes ran
      simp [Heap.elements,Heap.contents,get_delete] at shown
    obtain ⟨nothing,apart⟩ := (MultiVersion.append_view_agrees_iff shows_ shows' distinct isView).mp
      ⟨after,ran,elements_eq.mp shown⟩
    exact ⟨nothing,Ne.symm distinct,apart⟩
  · rintro ⟨rfl,distinct,apart⟩
    have ran := shows_.append_nothing shows' apart
    refine ⟨w,vs,_,shows_.window,shows_.vector,ran,?_,?_⟩
    · rw [List.append_nil,Window.replace,shows_.contents,take_slice_drop vs shows_.ordered]
      simp only [Heap.vector,get_delete_ne (Ne.symm apart)]
      exact shows_.written vs
    · rw [elements_eq,MultiVersion.delete_contents (Ne.symm distinct),if_neg apart,shows_.rewritten rfl,
        ← shows_.contents,List.append_nil]
      rw [get_write_ne (shows_.ne_of_view isView shows_.vector),isView]

end

end ViewEdit

theorem toInt64_small {n : Int} (above : -2 ^ 63 ≤ n) (below : n < 2 ^ 63) : toInt64 n = n := by
  rw [toInt64,Int.bmod_def]
  omega

theorem slices_eq_iff {first last first' last' : Nat} (bound : last ≤ vs.length)
    (bound' : last' ≤ vs.length) : slice vs first last = slice vs first' last' ↔
      last - first = last' - first' ∧ ∀ p < last' - first',vs[first + p]? = vs[first' + p]? := by
  constructor
  · intro same
    have length := congrArg List.length same
    rw [slice_length vs bound,slice_length vs bound'] at length
    refine ⟨length,fun p inside => ?_⟩
    have elements := (slice_eq_iff vs (by rw [slice_length vs bound',length])).mp same p (by omega)
    rw [elements,slice_getElem?,if_pos inside]
  · rintro ⟨length,elements⟩
    rw [slice_eq_iff vs (by rw [slice_length vs bound',length])]
    intro p inside
    rw [slice_getElem?,if_pos (by omega)]
    exact elements p (by omega)

theorem vectorSlice_eq_some {left right : Int} {result : List Word} :
    vectorSlice xs left right = some result ↔ 0 ≤ (sliceEnds xs.length left right).1 ∧
      (sliceEnds xs.length left right).2 ≤ xs.length ∧
      slice xs (sliceEnds xs.length left right).1.toNat (sliceEnds xs.length left right).2.toNat =
        result := by
  rw [vectorSlice]
  split_ifs with bounds
  · rw [Option.some.injEq]
    exact ⟨fun same => ⟨bounds.1,bounds.2,same⟩,fun all => all.2.2⟩
  · exact ⟨fun none => absurd none (by simp),fun all => absurd ⟨all.1,all.2.1⟩ bounds⟩

/-- An end that is counted from the end where it is negative. -/
def endPlace (size : Nat) (n : Int) : Int := if n < 0 then size + n + 1 else n

theorem sliceEnds_eq {size : Nat} (short : size < 2 ^ 60) {left right : Int} (inLeft : -2 ^ 63 ≤ left)
    (inRight : -2 ^ 63 ≤ right) : sliceEnds size left right =
      (min (endPlace size left) (endPlace size right),max (endPlace size left) (endPlace size right)) := by
  have isPlace : ∀ n : Int,-2 ^ 63 ≤ n → (if n < 0 then toInt64 (size + n + 1) else n) = endPlace size n := by
    intro n inside
    unfold endPlace
    split_ifs with negative
    · exact toInt64_small (by omega) (by omega)
    · rfl
  rw [sliceEnds,isPlace _ inLeft,isPlace _ inRight]
  split_ifs with reversed
  · rw [Int.min_eq_right (by omega),Int.max_eq_left (by omega)]
  · rw [Int.min_eq_left (by omega),Int.max_eq_right (by omega)]

theorem endPlace_nonneg {size : Nat} {n : Int} (nonneg : 0 ≤ n) : endPlace size n = n :=
  if_neg (by omega)

theorem endPlace_neg {size : Nat} {n : Int} (negative : n < 0) : endPlace size n = size + n + 1 :=
  if_pos negative

theorem alike_iff {vs : List Word} {p q : Prop} {i i' j j' count count' : Int} (lengths : p ↔ q)
    (same : p → i = i' ∧ j = j' ∧ count = count') : p ∧ Alike vs i j count ↔ q ∧ Alike vs i' j' count' := by
  rw [← lengths]
  refine and_congr_right fun holds => ?_
  obtain ⟨rfl,rfl,rfl⟩ := same holds
  rfl

def SameSlices (vs : List Word) (low high low' high' : Int) : Prop :=
  (0 ≤ low ∧ high ≤ vs.length ∧ high - low = high' - low') ∧ Alike vs low low' (high' - low')

theorem empty_iff {vs : List Word} {size low high low' high' : Int}
    (lengths : size = 0 ↔ 0 ≤ low ∧ high ≤ vs.length ∧ high - low = high' - low')
    (nothing : size = 0 → high' ≤ low') : size = 0 ↔ SameSlices vs low high low' high' := by
  rw [SameSlices,← lengths]
  refine (and_iff_left_of_imp fun empty p below => ?_).symm
  have := nothing empty
  omega

theorem sameSlices_iff {vs : List Word} {low high : Int} {first last : Nat} (ordered : low ≤ high)
    (ordered' : first ≤ last) (bound : last ≤ vs.length) : SameSlices vs low high first last ↔
      0 ≤ low ∧ high ≤ vs.length ∧ slice vs low.toNat high.toNat = slice vs first last := by
  rw [SameSlices,and_assoc,and_assoc]
  refine and_congr_right fun above => and_congr_right fun below => ?_
  rw [slices_eq_iff (by omega) bound,Alike,Int.toNat_natCast,← Int.toNat_sub last first]
  exact and_congr_left fun _ => by omega

section
variable {w : Window} {vs : List Word} {size : Nat} {left right : Int}

theorem fitsSlice_forward (is : w.last = w.first + size) (bound : w.last ≤ vs.length) (first : 0 ≤ left)
    (second : 0 ≤ right) (inLeft : left ≤ size) (inRight : right ≤ size) : w.FitsSlice vs left right ↔
      SameSlices vs (min (left + w.first) (right + w.last)) (max (left + w.first) (right + w.last))
        (w.first + min left right) (w.first + max left right) := by
  rw [Window.FitsSlice,if_pos ⟨first,second⟩,Int.min_eq_left (by omega),Int.max_eq_right (by omega)]
  split_ifs with ordered
  · exact empty_iff (by omega) (by omega)
  · rw [Int.min_eq_right (by omega),Int.max_eq_left (by omega),← and_assoc]
    exact alike_iff (by omega) (by omega)

theorem fitsSlice_leftOnly (is : w.last = w.first + size) (bound : w.last ≤ vs.length) (first : 0 ≤ left)
    (negative : right < 0) (inLeft : left ≤ size) (inRight : 0 ≤ size + right + 1) :
    w.FitsSlice vs left right ↔
      SameSlices vs (min (left + w.first) (endPlace vs.length (right + w.last)))
        (max (left + w.first) (endPlace vs.length (right + w.last)))
        (w.first + min left (size + right + 1)) (w.first + max left (size + right + 1)) := by
  rw [Window.FitsSlice,if_neg (by omega),if_pos first,← and_assoc,← and_assoc]
  unfold endPlace
  apply alike_iff
  · split_ifs <;> omega
  · split_ifs <;> omega

theorem fitsSlice_rightOnly (is : w.last = w.first + size) (bound : w.last ≤ vs.length) (negative : left < 0)
    (second : 0 ≤ right) (inLeft : 0 ≤ size + left + 1) (inRight : right ≤ size) :
    w.FitsSlice vs left right ↔
      SameSlices vs (min (endPlace vs.length (left + w.first)) (right + w.last))
        (max (endPlace vs.length (left + w.first)) (right + w.last))
        (w.first + min (size + left + 1) right) (w.first + max (size + left + 1) right) := by
  rw [Window.FitsSlice,if_neg (by omega),if_neg (by omega),if_pos second,← and_assoc,← and_assoc]
  unfold endPlace
  apply alike_iff
  · split_ifs <;> omega
  · split_ifs <;> omega

theorem fitsSlice_backward (is : w.last = w.first + size) (bound : w.last ≤ vs.length) (negative : left < 0)
    (negative' : right < 0) (inLeft : 0 ≤ size + left + 1) (inRight : 0 ≤ size + right + 1) :
    w.FitsSlice vs left right ↔
      SameSlices vs (min (endPlace vs.length (left + w.first)) (endPlace vs.length (right + w.last)))
        (max (endPlace vs.length (left + w.first)) (endPlace vs.length (right + w.last)))
        (w.first + min (size + left + 1) (size + right + 1))
        (w.first + max (size + left + 1) (size + right + 1)) := by
  rw [Window.FitsSlice,if_neg (by omega),if_neg (by omega),if_neg (by omega)]
  split_ifs with inside ordered inside'
  · rw [endPlace_nonneg (by omega),endPlace_nonneg (by omega)]
    exact empty_iff (by omega) (by omega)
  · rw [endPlace_nonneg (by omega),endPlace_nonneg (by omega)]
    exact alike_iff (by omega) (by omega)
  · rw [endPlace_neg (by omega),endPlace_nonneg (by omega)]
    exact alike_iff (by omega) (by omega)
  · rw [endPlace_neg (by omega),endPlace_neg (by omega)]
    exact alike_iff (by omega) (by omega)

/-- By the signs of the ends. -/
theorem fitsSlice_iff (is : w.last = w.first + size) (bound : w.last ≤ vs.length)
    (start : 0 ≤ min (endPlace size left) (endPlace size right))
    (finish : max (endPlace size left) (endPlace size right) ≤ size) : w.FitsSlice vs left right ↔
      SameSlices vs (min (endPlace vs.length (left + w.first)) (endPlace vs.length (right + w.last)))
        (max (endPlace vs.length (left + w.first)) (endPlace vs.length (right + w.last)))
        (w.first + min (endPlace size left) (endPlace size right))
        (w.first + max (endPlace size left) (endPlace size right)) := by
  by_cases first : 0 ≤ left <;> by_cases second : 0 ≤ right
  · rw [endPlace_nonneg first,endPlace_nonneg second] at *
    rw [endPlace_nonneg (by omega),endPlace_nonneg (by omega)]
    exact fitsSlice_forward is bound first second (by omega) (by omega)
  · rw [endPlace_nonneg first,endPlace_neg (Int.not_le.mp second)] at *
    rw [endPlace_nonneg (n := left + w.first) (by omega)]
    exact fitsSlice_leftOnly is bound first (Int.not_le.mp second) (by omega) (by omega)
  · rw [endPlace_neg (Int.not_le.mp first),endPlace_nonneg second] at *
    rw [endPlace_nonneg (n := right + w.last) (by omega)]
    exact fitsSlice_rightOnly is bound (Int.not_le.mp first) second (by omega) (by omega)
  · rw [endPlace_neg (Int.not_le.mp first),endPlace_neg (Int.not_le.mp second)] at *
    exact fitsSlice_backward is bound (Int.not_le.mp first) (Int.not_le.mp second) (by omega) (by omega)

end

/-- No end of a slice is behind the last element. -/
theorem le_of_sliceEnds {size : Nat} {left right : Int} (bound : (sliceEnds size left right).2 ≤ size) :
    left ≤ size ∧ right ≤ size := by
  simp only [sliceEnds] at bound
  split_ifs at bound <;> constructor <;> omega

/-- A slice of a view is one of the vector. -/
theorem Shows.getSequenceSlice (shows_ : Shows heap view w vs xs)
    (isView : heap.get view = some (.view w.vector w.first w.last)) (short : vs.length < 2 ^ 60)
    {left right : Int64} (inLeft : left.toInt ≤ xs.length) (inRight : right.toInt ≤ xs.length)
    (result : List Word) : (ViewCall.slice left right).Refines heap view result ↔
      vectorSlice vs (left.toInt + w.first) (right.toInt + w.last) = some result := by
  have last := shows_.last
  have bound := shows_.bound
  have aboveLeft := left.le_toInt
  have aboveRight := right.le_toInt
  have sliced : heap.getSequenceSlice view left.toInt right.toInt =
      (vectorSlice vs (left.toInt + w.first) (right.toInt + w.last)).map fun ys =>
        heap.allocate (.sequence ys) := by
    simp only [Heap.getSequenceSlice,isView,shows_.vector,Option.bind_eq_bind,Option.bind_some]
    rw [toInt64_small (by omega) (by omega),toInt64_small (by omega) (by omega)]
    cases vectorSlice vs (left.toInt + w.first) (right.toInt + w.last) <;> rfl
  rw [ViewCall.Refines,sliced]
  constructor
  · rintro ⟨made,isMade,shown⟩
    obtain ⟨ys,isSlice,rfl⟩ := Option.map_eq_some_iff.mp isMade
    obtain rfl := Contents.sequence.inj (Option.some.inj ((allocate_contents ys).symm.trans
      (elements_eq.mp shown)))
    exact isSlice
  · intro isSlice
    rw [isSlice]
    exact ⟨_,rfl,elements_eq.mpr (allocate_contents result)⟩

theorem slice_refines_iff (shows_ : Shows heap view w vs xs)
    (isView : heap.get view = some (.view w.vector w.first w.last)) (short : vs.length < 2 ^ 60)
    {left right : Int64} {result : List Word}
    (sliced : vectorSlice xs left.toInt right.toInt = some result) :
    (ViewCall.slice left right).Refines heap view result ↔
      (ViewCall.slice left right).Fits heap view := by
  have length := shows_.length
  have bound := shows_.bound
  have first := shows_.ordered
  obtain ⟨start,finish,same⟩ := vectorSlice_eq_some.mp sliced
  obtain ⟨inLeft,inRight⟩ := le_of_sliceEnds finish
  rw [shows_.getSequenceSlice isView short inLeft inRight,vectorSlice_eq_some,ViewCall.Fits,← same]
  have aboveLeft := left.le_toInt
  have aboveRight := right.le_toInt
  have is : w.last = w.first + xs.length := by omega
  have short' : xs.length < 2 ^ 60 := by omega
  have ends := sliceEnds_eq short' aboveLeft aboveRight
  rw [ends] at start finish
  rw [ends,sliceEnds_eq short (by omega) (by omega)]
  simp only [shows_.window,shows_.vector,Option.some.injEq,exists_and_left,exists_eq_left']
  rw [fitsSlice_iff is bound start finish]
  clear same sliced ends
  dsimp only at start finish ⊢
  generalize isFirst : min (endPlace xs.length left.toInt) (endPlace xs.length right.toInt) = first' at *
  generalize isLast : max (endPlace xs.length left.toInt) (endPlace xs.length right.toInt) = last' at *
  have ordered : first' ≤ last' := by omega
  obtain ⟨i,rfl⟩ := Int.eq_ofNat_of_zero_le start
  obtain ⟨j,rfl⟩ := Int.eq_ofNat_of_zero_le (Int.le_trans start ordered)
  rw [Int.toNat_natCast,Int.toNat_natCast,shows_.contents,slice_slice vs _ _ (by omega)]
  exact (sameSlices_iff (by omega) (by omega) (by omega)).symm

end

/-- What is done through a view is done to the part that it shows, exactly where it fits. -/
theorem refines_iff_fits (heap : Heap) (allocatable : Allocatable heap) {view : Nat} {xs result : List Word}
    (isView : Edit.isView heap view = true) (shown : heap.elements view = some xs) (call : ViewCall)
    (inRange : call.onList heap xs = some result) :
    call.Refines heap view result ↔ call.Fits heap view := by
  have addressable := allocatable.addressable
  obtain ⟨w,vs,shows_⟩ := exists_shows addressable (elements_eq.mp shown)
  have is : heap.get view = some (.view w.vector w.first w.last) := by
    rcases Edit.isView_iff shows_ with ⟨noView,_⟩ | ⟨_,is⟩
    · exact absurd (isView.symm.trans noView) (by decide)
    · exact is
  cases call with
  | slice left right =>
    exact slice_refines_iff shows_ is (allocatable _ _ shows_.vector) inRange
  | edit change =>
    cases change with
    | insertElement value index =>
      obtain ⟨inside,rfl⟩ : index ≤ xs.length ∧ splice xs index 0 [value] = result := by
        simpa [ViewCall.onList,ViewEdit.onList] using inRange
      exact ViewEdit.insertElement_refines_iff shows_ is value inside
    | insert toInsert index =>
      obtain ⟨ys,inserted,inRange⟩ := Option.bind_eq_some_iff.mp inRange
      obtain ⟨inside,rfl⟩ : index ≤ xs.length ∧ splice xs index 0 ys = result := by
        simpa using inRange
      obtain ⟨w',vs',shows'⟩ := exists_shows addressable (elements_eq.mp inserted)
      exact ViewEdit.insert_refines_iff shows_ is shows' inside
    | remove i j =>
      obtain ⟨⟨ordered,inside⟩,rfl⟩ : (i ≤ j ∧ j ≤ xs.length) ∧ splice xs i (j - i) [] = result := by
        simpa [ViewCall.onList,ViewEdit.onList] using inRange
      exact ViewEdit.remove_refines_iff shows_ is ordered inside
    | append appended =>
      obtain ⟨ys,inserted,same⟩ := Option.bind_eq_some_iff.mp inRange
      obtain rfl := Option.some.inj same
      obtain ⟨w',vs',shows'⟩ := exists_shows addressable (elements_eq.mp inserted)
      exact ViewEdit.append_refines_iff shows_ is shows'
    | write value index =>
      obtain ⟨inside,rfl⟩ : index < xs.length ∧ xs.set index value = result := by
        simpa [ViewCall.onList,ViewEdit.onList] using inRange
      exact ⟨fun _ => trivial,fun _ => ViewEdit.write_refines shows_ is value inside⟩

theorem viewed_allocatable : Allocatable Edit.viewed :=
  fun handle xs isVector => Nat.lt_of_le_of_lt (Edit.viewed_length_le handle xs isVector) (by decide)

theorem refines_iff_fits_viewed :
    (ViewCall.edit (.remove 0 1)).Refines Edit.viewed 1 [2] ↔
      (ViewCall.edit (.remove 0 1)).Fits Edit.viewed 1 :=
  refines_iff_fits Edit.viewed viewed_allocatable rfl rfl (.edit (.remove 0 1)) rfl

/-- What is inserted into the base pushes an element out of the view. -/
theorem viewed_not_refines : (ViewCall.edit (.insertElement 7 0)).onList Edit.viewed [1,2] = some [7,1,2] ∧
    Edit.viewed.elements 1 = some [1,2] ∧
    ¬ (ViewCall.edit (.insertElement 7 0)).Refines Edit.viewed 1 [7,1,2] := by
  refine ⟨rfl,rfl,?_⟩
  rintro ⟨w,vs,after,_,_,ran,_,shown⟩
  obtain rfl := Option.some.inj ran
  have short : [7,1] = [7,1,2] := Option.some.inj shown
  exact absurd short (by decide)

end Runtime
end Memoir
