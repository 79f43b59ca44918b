import Memoir.RuntimeSequences

/-! What SSA construction makes of the mutable operations with several results. -/
namespace Memoir
namespace Runtime
open Heap

theorem swapAt_self {α : Type} (xs : List α) (i : Nat) : swapAt xs i i = xs := by
  unfold swapAt
  split
  · rename_i x y found found'
    rw [List.set_set]
    obtain ⟨bound,rfl⟩ := List.getElem?_eq_some_iff.mp found
    exact List.set_getElem_self bound
  · rfl

theorem swapAt_comm {α : Type} (xs : List α) (i k : Nat) : swapAt xs i k = swapAt xs k i := by
  by_cases same : i = k
  · rw [same]
  unfold swapAt
  cases xs[i]? with
  | none => cases xs[k]? <;> rfl
  | some x => cases xs[k]? with
    | none => rfl
    | some y => exact List.set_comm _ _ same

theorem swapLoop_self {α : Type} (xs : List α) (i count : Nat) : swapLoop xs i i count = xs := by
  induction count generalizing i with
  | zero => rfl
  | succ count ih => rw [swapLoop,swapAt_self,ih]

theorem swapLoop_comm {α : Type} (xs : List α) (i k count : Nat) :
    swapLoop xs i k count = swapLoop xs k i count := by
  induction count generalizing xs i k with
  | zero => rfl
  | succ count ih => rw [swapLoop,swapLoop,swapAt_comm,ih]

theorem swapAt_getElem? {α : Type} {xs : List α} {i k : Nat} (apart : i ≠ k) (bound : i < xs.length)
    (bound' : k < xs.length) (p : Nat) :
    (swapAt xs i k)[p]? = if p = k then xs[i]? else if p = i then xs[k]? else xs[p]? := by
  unfold swapAt
  rw [List.getElem?_eq_getElem bound,List.getElem?_eq_getElem bound']
  by_cases isSecond : p = k
  · subst isSecond
    rw [if_pos rfl,List.getElem?_set_self (by simpa)]
  rw [if_neg isSecond,List.getElem?_set_ne (Ne.symm isSecond)]
  by_cases isFirst : p = i
  · subst isFirst
    rw [if_pos rfl,List.getElem?_set_self bound]
  rw [if_neg isFirst,List.getElem?_set_ne (Ne.symm isFirst)]

/-- Where the element comes from that the loop leaves at a position. Behind the lower
range are the elements that the loop has carried along. -/
def origin (low high count p : Nat) : Nat :=
  if low ≤ p ∧ p < low + count then p + (high - low)
  else if high ≤ p ∧ p < high + count then low + (p - high) % (high - low)
  else p

section
variable {low high count p : Nat}

theorem origin_lower (lower : low ≤ p ∧ p < low + count) :
    origin low high count p = p + (high - low) := if_pos lower

theorem origin_upper (notLower : ¬ (low ≤ p ∧ p < low + count))
    (upper : high ≤ p ∧ p < high + count) :
    origin low high count p = low + (p - high) % (high - low) := by
  rw [origin,if_neg notLower,if_pos upper]

theorem origin_outside (notLower : ¬ (low ≤ p ∧ p < low + count))
    (notUpper : ¬ (high ≤ p ∧ p < high + count)) : origin low high count p = p := by
  rw [origin,if_neg notLower,if_neg notUpper]

end

theorem succ_mod (m : Nat) {d : Nat} (positive : 0 < d) :
    (m + 1) % d = if m % d + 1 = d then 0 else m % d + 1 := by
  have below := Nat.mod_lt m positive
  rw [← Nat.mod_add_mod]
  split_ifs with last
  · rw [last,Nat.mod_self]
  · exact Nat.mod_eq_of_lt (by omega)

/-- One exchange more at the front. -/
theorem origin_succ {low high : Nat} (apart : low < high) (count p : Nat) :
    origin low high (count + 1) p =
      if origin (low + 1) (high + 1) count p = high then low
      else if origin (low + 1) (high + 1) count p = low then high
      else origin (low + 1) (high + 1) count p := by
  have distance : high + 1 - (low + 1) = high - low := by omega
  by_cases lower : low + 1 ≤ p ∧ p < low + 1 + count
  · rw [origin_lower lower,origin_lower (by omega),distance,if_neg (by omega),if_neg (by omega)]
  by_cases upper : high + 1 ≤ p ∧ p < high + 1 + count
  · have next := succ_mod (p - (high + 1)) (Nat.sub_pos_of_lt apart)
    have below := Nat.mod_lt (p - (high + 1)) (Nat.sub_pos_of_lt apart)
    have before : p - high = p - (high + 1) + 1 := by omega
    rw [origin_upper lower upper,origin_upper (by omega) (by omega),distance,before,next]
    by_cases last : (p - (high + 1)) % (high - low) + 1 = high - low
    · rw [if_pos last,if_pos (by omega),Nat.add_zero]
    · rw [if_neg last,if_neg (by omega),if_neg (by omega)]
      omega
  rw [origin_outside lower upper]
  by_cases second : p = high
  · rw [if_pos second,origin_upper (by omega) (by omega),second,Nat.sub_self,Nat.zero_mod,
      Nat.add_zero]
  by_cases first : p = low
  · rw [if_neg second,if_pos first,origin_lower (by omega)]
    omega
  · rw [if_neg second,if_neg first,origin_outside (by omega) (by omega)]

theorem swapLoop_getElem? {α : Type} {xs : List α} {low high count : Nat} (apart : low < high)
    (bound : high + count ≤ xs.length) (p : Nat) :
    (swapLoop xs low high count)[p]? = xs[origin low high count p]? := by
  induction count generalizing xs low high with
  | zero => rw [swapLoop,origin_outside (by omega) (by omega)]
  | succ count ih =>
    rw [swapLoop,ih (by omega) (by rw [swapAt_length]; omega),
      swapAt_getElem? (by omega) (by omega) (by omega),origin_succ apart]
    split_ifs <;> rfl

/-- Positions of two lists. -/
theorem swapBetween_getElem? {xs ys : List Word} {i k count : Nat} (bound : i + count ≤ xs.length)
    (bound' : k + count ≤ ys.length) (p : Nat) :
    (swapBetween xs ys i k count).1[p]? =
      if i ≤ p ∧ p < i + count then ys[k + (p - i)]? else xs[p]? := by
  induction count generalizing xs ys i k with
  | zero => rw [swapBetween,if_neg (by omega)]
  | succ count ih =>
    have found : xs[i]? = some xs[i] := List.getElem?_eq_getElem (by omega)
    have found' : ys[k]? = some ys[k] := List.getElem?_eq_getElem (by omega)
    simp only [swapBetween,found,found']
    rw [ih (by rw [List.length_set]; omega) (by rw [List.length_set]; omega)]
    by_cases first : p = i
    · subst first
      rw [if_neg (by omega),if_pos (by omega),List.getElem?_set_self (by omega),Nat.sub_self,
        Nat.add_zero,found']
    by_cases later : i + 1 ≤ p ∧ p < i + 1 + count
    · rw [if_pos later,if_pos (by omega),List.getElem?_set_ne (by omega)]
      congr 1
      omega
    · rw [if_neg later,if_neg (by omega),List.getElem?_set_ne (by omega)]

theorem swapBetween_comm (xs ys : List Word) (i k count : Nat) :
    (swapBetween xs ys i k count).2 = (swapBetween ys xs k i count).1 := by
  induction count generalizing xs ys i k with
  | zero => rfl
  | succ count ih =>
    unfold swapBetween
    cases xs[i]? with
    | none => cases ys[k]? <;> rfl
    | some x => cases ys[k]? with
      | none => rfl
      | some y => exact ih _ _ _ _

theorem swapBetween_length (xs ys : List Word) (i k count : Nat) :
    (swapBetween xs ys i k count).1.length = xs.length := by
  induction count generalizing xs ys i k with
  | zero => rfl
  | succ count ih =>
    unfold swapBetween
    split
    · rw [ih,List.length_set]
    · rfl

/-- The exchange of parts of two lists. -/
theorem slices_getElem? {vs vs' : List Word} {first last first' last' i k count : Nat}
    (bound : last ≤ vs.length) (bound' : last' ≤ vs'.length) (inside : i + count ≤ last - first)
    (inside' : k + count ≤ last' - first') {p : Nat} (shown : p < last - first) :
    (swapBetween (slice vs first last) (slice vs' first' last') i k count).1[p]? =
      if i ≤ p ∧ p < i + count then vs'[first' + k + (p - i)]? else vs[first + p]? := by
  rw [swapBetween_getElem? (by rw [slice_length vs bound]; exact inside)
    (by rw [slice_length vs' bound']; exact inside'),slice_getElem?,slice_getElem?,if_pos shown]
  split_ifs with exchanged inRange
  · rw [Nat.add_assoc]
  · omega
  · rfl

theorem slice_eq_iff (zs : List Word) {first last : Nat} {xs : List Word}
    (length : xs.length = last - first) :
    slice zs first last = xs ↔ ∀ p < last - first, zs[first + p]? = xs[p]? := by
  constructor
  · rintro rfl p shown
    rw [slice_getElem?,if_pos shown]
  · intro same
    apply List.ext_getElem?
    intro p
    rw [slice_getElem?]
    split_ifs with shown
    · exact same p shown
    · rw [List.getElem?_eq_none (by omega)]

theorem slice_swapBetween {vs vs' : List Word} {first last first' last' i k count : Nat}
    (ordered : first ≤ last) (ordered' : first' ≤ last') (bound : last ≤ vs.length)
    (bound' : last' ≤ vs'.length) (inside : i + count ≤ last - first)
    (inside' : k + count ≤ last' - first') :
    slice (swapBetween vs vs' (first + i) (first' + k) count).1 first last =
      (swapBetween (slice vs first last) (slice vs' first' last') i k count).1 := by
  rw [slice_eq_iff _ (by rw [swapBetween_length,slice_length vs bound])]
  intro p shown
  rw [slices_getElem? bound bound' inside inside' shown,swapBetween_getElem? (by omega) (by omega)]
  by_cases exchanged : i ≤ p ∧ p < i + count
  · rw [if_pos exchanged,if_pos (by omega),Nat.add_sub_add_left]
  · rw [if_neg exchanged,if_neg (by omega)]

/-- Two ranges of one vector that an exchange leaves to two windows as if each had a vector
of its own: what the other window shows too, and what the loop meets again. -/
structure Repeats (vs : List Word) (low high count : Nat) (l h : Window) : Prop where
  shown : ∀ t < count, low + count ≤ high + t ∧ high + t < l.last ∨
    low + t < high ∧ h.first ≤ low + t → vs[low + t]? = vs[high + t]?
  twice : ∀ t, t + (high - low) < count → vs[low + t]? = vs[high + (t + (high - low))]?
  carried : ∀ t < count, count ≤ t + (high - low) → vs[low + t % (high - low)]? = vs[low + t]?

section
variable {vs : List Word} {low high count : Nat} {l h : Window}

theorem lower_iff (apart : low < high) (bound : high + count ≤ vs.length) :
    (∀ p, l.first ≤ p ∧ p < l.last → (swapLoop vs low high count)[p]? =
        if low ≤ p ∧ p < low + count then vs[high + (p - low)]? else vs[p]?) ↔
      ∀ t < count, l.first ≤ high + t → low + count ≤ high + t ∧ high + t < l.last →
        vs[low + t % (high - low)]? = vs[high + t]? := by
  constructor
  · intro same t below first beyond
    have found := same (high + t) ⟨first,beyond.2⟩
    rw [if_neg (by omega),swapLoop_getElem? apart bound,origin_upper (by omega) (by omega),
      Nat.add_sub_cancel_left] at found
    exact found
  · rintro same p ⟨first,last⟩
    rw [swapLoop_getElem? apart bound]
    by_cases lower : low ≤ p ∧ p < low + count
    · rw [origin_lower lower,if_pos lower]
      congr 1
      omega
    rw [if_neg lower]
    by_cases upper : high ≤ p ∧ p < high + count
    · rw [origin_upper lower upper]
      obtain ⟨t,rfl⟩ := Nat.exists_eq_add_of_le upper.1
      rw [Nat.add_sub_cancel_left]
      exact same t (by omega) first (by omega)
    · rw [origin_outside lower upper]

theorem upper_iff (apart : low < high) (bound : high + count ≤ vs.length)
    (inside : h.first ≤ high) (inside' : high + count ≤ h.last) :
    (∀ p, h.first ≤ p ∧ p < h.last → (swapLoop vs low high count)[p]? =
        if high ≤ p ∧ p < high + count then vs[low + (p - high)]? else vs[p]?) ↔
      (∀ t < count, low + t < high ∧ h.first ≤ low + t → vs[low + t]? = vs[high + t]?) ∧
      (∀ t, t + (high - low) < count → vs[low + t]? = vs[high + (t + (high - low))]?) ∧
      ∀ t < count, count ≤ t + (high - low) → vs[low + t % (high - low)]? = vs[low + t]? := by
  constructor
  · intro same
    refine ⟨fun t below beyond => ?_,fun t below => ?_,fun t below beyond => ?_⟩
    · have found := same (low + t) (by omega)
      rw [if_neg (by omega),swapLoop_getElem? apart bound,origin_lower (by omega)] at found
      rw [← found]
      congr 1
      omega
    · have found := same (high + t) (by omega)
      rw [if_pos (by omega),swapLoop_getElem? apart bound,origin_lower (by omega),
        Nat.add_sub_cancel_left] at found
      rw [← found,Nat.add_assoc]
    · have found := same (high + t) (by omega)
      rw [if_pos (by omega),swapLoop_getElem? apart bound,origin_upper (by omega) (by omega),
        Nat.add_sub_cancel_left] at found
      exact found
  · rintro ⟨shown,twice,carried⟩ p ⟨first,last⟩
    rw [swapLoop_getElem? apart bound]
    by_cases upper : high ≤ p ∧ p < high + count
    · obtain ⟨t,rfl⟩ := Nat.exists_eq_add_of_le upper.1
      rw [if_pos upper,Nat.add_sub_cancel_left]
      by_cases lower : low ≤ high + t ∧ high + t < low + count
      · rw [origin_lower lower,Nat.add_assoc]
        exact (twice t (by omega)).symm
      · rw [origin_upper lower upper,Nat.add_sub_cancel_left]
        exact carried t (by omega) (by omega)
    rw [if_neg upper]
    by_cases lower : low ≤ p ∧ p < low + count
    · obtain ⟨t,rfl⟩ := Nat.exists_eq_add_of_le lower.1
      rw [origin_lower lower,shown t (by omega) (by omega)]
      congr 1
      omega
    · rw [origin_outside lower upper]

/-- When an exchange within one vector is what two windows would have with a vector each. -/
theorem repeats_iff (apart : low < high) (bound : high + count ≤ vs.length)
    (inside : l.first ≤ low) (inside' : h.first ≤ high) (inside'' : high + count ≤ h.last) :
    ((∀ p, l.first ≤ p ∧ p < l.last → (swapLoop vs low high count)[p]? =
        if low ≤ p ∧ p < low + count then vs[high + (p - low)]? else vs[p]?) ∧
      (∀ p, h.first ≤ p ∧ p < h.last → (swapLoop vs low high count)[p]? =
        if high ≤ p ∧ p < high + count then vs[low + (p - high)]? else vs[p]?)) ↔
      Repeats vs low high count l h := by
  rw [lower_iff apart bound,upper_iff apart bound inside' inside'']
  constructor
  · rintro ⟨beyond,shown,twice,carried⟩
    refine ⟨?_,twice,carried⟩
    rintro t below (seen | seen)
    · rw [← beyond t below (by omega) seen]
      exact (carried t below (by omega)).symm
    · exact shown t below seen
  · intro repeats
    refine ⟨fun t below _ seen => ?_,fun t below seen => repeats.shown t below (.inr seen),
      repeats.twice,repeats.carried⟩
    rw [repeats.carried t below (by omega)]
    exact repeats.shown t below (.inl seen)

end

/-- The mutable operations that become several operations, or make several versions. -/
inductive MultiVersion
  | append (collection appended : Nat)
  | split (collection i j : Nat)
  | swap (collection i j collection' i' : Nat)

namespace MultiVersion

/-- What SSA construction emits, with the new versions of the named collections. -/
def constructed (heap : Heap) : MultiVersion → Option (Heap × List Nat)
  | append collection appended => do
    let (heap,version) ← heap.sequenceInsert appended collection endOfSequence
    return (heap,[version])
  | split collection i j => do
    let (heap,splitOff) ← heap.sequenceCopy collection i j
    let (heap,remaining) ← heap.sequenceRemove collection i j
    return (heap,[splitOff,remaining])
  | swap collection i j collection' i' => do
    let (heap,first,second) ← heap.sequenceSwap collection i j collection' i'
    return (heap,[first,second])

def inPlace (heap : Heap) : MultiVersion → Option (Heap × List Nat)
  | append collection appended => do
    return (← heap.mutSequenceAppend collection appended,[collection])
  | split collection i j => do
    let (heap,splitOff) ← heap.mutSequenceSplit collection i j
    return (heap,[splitOff,collection])
  | swap collection i j collection' i' => do
    return (← heap.mutSequenceSwap collection i j collection' i',[collection,collection'])

def InRange (heap : Heap) : MultiVersion → Prop
  | append collection appended => collection ≠ appended ∧
    (∃ xs, heap.contents collection = some (.sequence xs)) ∧
    ∃ ys, heap.contents appended = some (.sequence ys)
  | split collection i j =>
    ∃ xs, heap.contents collection = some (.sequence xs) ∧ i ≤ j ∧ j ≤ xs.length
  | swap collection i j collection' i' => ∃ xs ys, heap.contents collection = some (.sequence xs) ∧
    heap.contents collection' = some (.sequence ys) ∧ i ≤ j ∧ j ≤ xs.length ∧
    i' + (j - i) ≤ ys.length

def Alike (made after : Heap) (version name : Nat) : Prop :=
  ∃ xs, made.contents version = some (.sequence xs) ∧ after.contents name = some (.sequence xs)

def Agrees (heap : Heap) (operation : MultiVersion) : Prop :=
  ∃ made after, operation.constructed heap = some made ∧ operation.inPlace heap = some after ∧
    List.Forall₂ (Alike made.1 after.1) made.2 after.2

/-- What is appended finds room or is empty; nothing is split off; two ranges of one vector
have the elements that two vectors would have. -/
def Fits (heap : Heap) : MultiVersion → Prop
  | append collection appended => Edit.isView heap collection = false ∨
    heap.contents appended = some (.sequence []) ∧
      (heap.window collection).map Window.vector ≠ some appended
  | split _ i j => i = j
  | swap collection i j collection' i' => ∀ w w' vs, heap.window collection = some w →
    heap.window collection' = some w' → w.vector = w'.vector → heap.vector w.vector = some vs →
    (w.first + i < w'.first + i' →
      Repeats vs (w.first + i) (w'.first + i') (rounds (j - i)) w w') ∧
    (w'.first + i' < w.first + i →
      Repeats vs (w'.first + i') (w.first + i) (rounds (j - i)) w' w)

end MultiVersion

theorem get_delete_ne {heap : Heap} {handle other : Nat} (apart : handle ≠ other) :
    (heap.delete handle).get other = heap.get other := by
  simp [Heap.get,Heap.delete,List.getElem?_set_ne apart]

theorem get_delete (heap : Heap) (handle : Nat) : (heap.delete handle).get handle = none := by
  simp only [Heap.get,Heap.delete,List.getElem?_set_self']
  cases heap.memory[handle]? <;> rfl

theorem write_write (heap : Heap) (handle : Nat) (contents contents' : Contents) :
    (heap.write handle contents).write handle contents' = heap.write handle contents' := by
  simp [Heap.write]

section
variable {heap : Heap} {sequence : Nat} {w : Window} {vs xs : List Word}

namespace Shows
variable (shows_ : Shows heap sequence w vs xs)
include shows_

/-- Another vector is written. -/
theorem write_other {handle : Nat} {zs : List Word} (isVector : heap.vector handle = some zs)
    (apart : w.vector ≠ handle) (zs' : List Word) :
    Shows (heap.write handle (.sequence zs')) sequence w vs xs := by
  have apart' : handle ≠ sequence := by
    rcases shows_.own_or_view with ⟨_,rfl,_⟩ | view
    · exact Ne.symm apart
    · exact shows_.ne_of_view view isVector
  refine ⟨?_,?_,shows_.ordered,shows_.bound,shows_.short,shows_.contents⟩
  · rw [← shows_.window]
    simp only [Heap.window,get_write_ne apart']
  · rw [← shows_.vector]
    simp only [Heap.vector,get_write_ne (Ne.symm apart)]

theorem sequenceSwap {sequence' i j k : Nat} {w' : Window} {vs' ys : List Word}
    (shows' : Shows heap sequence' w' vs' ys) (ordered : i ≤ j) (bound : j ≤ xs.length)
    (bound' : k + (j - i) ≤ ys.length) :
    ∃ made first second, heap.sequenceSwap sequence i j sequence' k = some (made,first,second) ∧
      made.contents first = some (.sequence (swapBetween xs ys i k (rounds (j - i))).1) ∧
      made.contents second = some (.sequence (swapBetween ys xs k i (rounds (j - i))).1) := by
  have short := shows'.short'
  unfold endOfSequence at short
  have few : rounds (j - i) ≤ j - i := Nat.min_le_left _ _
  have runs : heap.sequenceSwap sequence i j sequence' k = do
      let (made,first) := heap.allocate (.sequence (swapBetween xs ys i k (rounds (j - i))).1)
      let (made,second) := made.allocate (.sequence (swapBetween xs ys i k (rounds (j - i))).2)
      return (made,first,second) := by
    simp only [Heap.sequenceSwap,shows'.size,shows_.resolve (Nat.le_trans ordered bound),
      shows_.resolve bound,shows'.resolve (Nat.le_trans (Nat.le_add_right k _) bound'),
      shows_.window,shows'.window,shows_.range_all,shows'.range_all,Option.bind_eq_bind,
      Option.bind_some]
    rw [if_pos ⟨ordered,by simp only [sum]; omega⟩,if_pos ⟨by omega,by omega⟩]
  rw [swapBetween_comm] at runs
  have first : (heap.allocate (.sequence (swapBetween xs ys i k (rounds (j - i))).1)).1.contents
      heap.memory.length = some (.sequence (swapBetween xs ys i k (rounds (j - i))).1) :=
    allocate_contents _
  exact ⟨_,_,_,runs,(allocate_unchanged first).trans first,allocate_contents _⟩

theorem mutSequenceSwap {sequence' i j k : Nat} {w' : Window} {vs' ys : List Word}
    (shows' : Shows heap sequence' w' vs' ys) (ordered : i ≤ j) (bound : j ≤ xs.length)
    (bound' : k + (j - i) ≤ ys.length) :
    heap.mutSequenceSwap sequence i j sequence' k = some (if w.vector = w'.vector then
      heap.write w.vector (.sequence
        (swapLoop vs (w.first + i) (w'.first + k) (rounds (j - i))))
      else (heap.write w.vector (.sequence
        (swapBetween vs vs' (w.first + i) (w'.first + k) (rounds (j - i))).1)).write w'.vector
          (.sequence (swapBetween vs vs' (w.first + i) (w'.first + k) (rounds (j - i))).2)) := by
  have last := shows_.last
  have inside := shows_.bound
  have last' := shows'.last
  have inside' := shows'.bound
  have short := shows'.short'
  unfold endOfSequence at short
  have few : rounds (j - i) ≤ j - i := Nat.min_le_left _ _
  simp only [Heap.mutSequenceSwap,shows'.size,shows_.window,shows'.window,shows_.vector,
    shows'.vector,Option.bind_eq_bind,Option.bind_some]
  rw [if_pos ⟨ordered,by simp only [sum]; omega⟩,if_pos ⟨by omega,by omega⟩]
  split_ifs <;> rfl

end Shows

theorem exchanged_iff {vs vs' zs : List Word} {w w' : Window} {i k count : Nat}
    (bound : w.last ≤ vs.length) (bound' : w'.last ≤ vs'.length)
    (inside : i + count ≤ w.last - w.first) (inside' : k + count ≤ w'.last - w'.first) :
    slice zs w.first w.last = (swapBetween (slice vs w.first w.last)
        (slice vs' w'.first w'.last) i k count).1 ↔
      ∀ p, w.first ≤ p ∧ p < w.last → zs[p]? =
        if w.first + i ≤ p ∧ p < w.first + i + count then vs'[w'.first + k + (p - (w.first + i))]?
        else vs[p]? := by
  rw [slice_eq_iff zs (by rw [swapBetween_length,slice_length vs bound])]
  constructor
  · rintro same p ⟨first,last⟩
    obtain ⟨q,rfl⟩ := Nat.exists_eq_add_of_le first
    rw [same q (by omega),slices_getElem? bound bound' inside inside' (by omega),
      Nat.add_sub_add_left]
    by_cases exchanged : i ≤ q ∧ q < i + count
    · rw [if_pos exchanged,if_pos (by omega)]
    · rw [if_neg exchanged,if_neg (by omega)]
  · intro same q shown
    rw [same (w.first + q) (by omega),slices_getElem? bound bound' inside inside' shown,
      Nat.add_sub_add_left]
    by_cases exchanged : i ≤ q ∧ q < i + count
    · rw [if_pos exchanged,if_pos (by omega)]
    · rw [if_neg exchanged,if_neg (by omega)]

namespace MultiVersion

theorem alike_iff {made after : Heap} {version name : Nat} {xs ys : List Word}
    (new : made.contents version = some (.sequence xs))
    (left : after.contents name = some (.sequence ys)) : Alike made after version name ↔ ys = xs := by
  constructor
  · rintro ⟨zs,isNew,isLeft⟩
    obtain rfl := Contents.sequence.inj (Option.some.inj (new.symm.trans isNew))
    exact Contents.sequence.inj (Option.some.inj (left.symm.trans isLeft))
  · rintro rfl
    exact ⟨ys,new,left⟩

theorem agrees_iff (operation : MultiVersion) (made after : Heap × List Nat)
    (emitted : operation.constructed heap = some made) (ran : operation.inPlace heap = some after) :
    operation.Agrees heap ↔ List.Forall₂ (Alike made.1 after.1) made.2 after.2 := by
  constructor
  · rintro ⟨made',after',emitted',ran',alike⟩
    obtain rfl := Option.some.inj (emitted.symm.trans emitted')
    obtain rfl := Option.some.inj (ran.symm.trans ran')
    exact alike
  · exact fun alike => ⟨made,after,emitted,ran,alike⟩

theorem swap_fits_iff {sequence' i j k : Nat} {w' : Window} {vs' ys : List Word}
    (shows_ : Shows heap sequence w vs xs) (shows' : Shows heap sequence' w' vs' ys) :
    (swap sequence i j sequence' k).Fits heap ↔ (w.vector = w'.vector →
      (w.first + i < w'.first + k →
        Repeats vs (w.first + i) (w'.first + k) (rounds (j - i)) w w') ∧
      (w'.first + k < w.first + i →
        Repeats vs (w'.first + k) (w.first + i) (rounds (j - i)) w' w)) := by
  constructor
  · intro fits same
    exact fits w w' vs shows_.window shows'.window same shows_.vector
  · intro repeats v v' us isWindow isWindow' same isVector
    obtain rfl := Option.some.inj (shows_.window.symm.trans isWindow)
    obtain rfl := Option.some.inj (shows'.window.symm.trans isWindow')
    obtain rfl := Option.some.inj (shows_.vector.symm.trans isVector)
    exact repeats same

/-- Both windows after an exchange within their vector. -/
theorem shared_iff {w w' : Window} {i k count : Nat} (ordered : w.first ≤ w.last)
    (ordered' : w'.first ≤ w'.last) (bound : w.last ≤ vs.length) (bound' : w'.last ≤ vs.length)
    (inside : i + count ≤ w.last - w.first) (inside' : k + count ≤ w'.last - w'.first) :
    (slice (swapLoop vs (w.first + i) (w'.first + k) count) w.first w.last =
        (swapBetween (slice vs w.first w.last) (slice vs w'.first w'.last) i k count).1 ∧
      slice (swapLoop vs (w.first + i) (w'.first + k) count) w'.first w'.last =
        (swapBetween (slice vs w'.first w'.last) (slice vs w.first w.last) k i count).1) ↔
      (w.first + i < w'.first + k →
        Repeats vs (w.first + i) (w'.first + k) count w w') ∧
      (w'.first + k < w.first + i →
        Repeats vs (w'.first + k) (w.first + i) count w' w) := by
  rw [exchanged_iff bound bound' inside inside',exchanged_iff bound' bound inside' inside]
  rcases Nat.lt_trichotomy (w.first + i) (w'.first + k) with below | same | above
  · rw [repeats_iff below (by omega) (Nat.le_add_right _ _) (Nat.le_add_right _ _) (by omega)]
    exact ⟨fun repeats => ⟨fun _ => repeats,fun above => absurd above (by omega)⟩,
      fun repeats => repeats.1 below⟩
  · rw [same,swapLoop_self]
    refine iff_of_true ⟨fun p _ => ?_,fun p _ => ?_⟩ ⟨fun below => absurd below (by omega),
      fun above => absurd above (by omega)⟩
    all_goals
      split_ifs with exchanged
      · rw [Nat.add_sub_cancel' exchanged.1]
      · rfl
  · rw [swapLoop_comm,and_comm,
      repeats_iff above (by omega) (Nat.le_add_right _ _) (Nat.le_add_right _ _) (by omega)]
    exact ⟨fun repeats => ⟨fun below => absurd below (by omega),fun _ => repeats⟩,
      fun repeats => repeats.2 above⟩

theorem swap_alike_iff {sequence' i j k first second : Nat} {made after : Heap}
    (emitted : heap.sequenceSwap sequence i j sequence' k = some (made,first,second))
    (ran : heap.mutSequenceSwap sequence i j sequence' k = some after) :
    (swap sequence i j sequence' k).Agrees heap ↔
      Alike made after first sequence ∧ Alike made after second sequence' := by
  rw [agrees_iff _ (made,[first,second]) (after,[sequence,sequence'])
    (by rw [constructed,emitted]; rfl) (by rw [MultiVersion.inPlace,ran]; rfl)]
  simp only [List.forall₂_cons,List.Forall₂.nil,and_true]

theorem swap_agrees_iff {sequence' i j k : Nat} {w' : Window} {vs' ys : List Word}
    (shows_ : Shows heap sequence w vs xs) (shows' : Shows heap sequence' w' vs' ys)
    (ordered : i ≤ j) (bound : j ≤ xs.length) (bound' : k + (j - i) ≤ ys.length) :
    (swap sequence i j sequence' k).Agrees heap ↔ (swap sequence i j sequence' k).Fits heap := by
  obtain ⟨made,first,second,emitted,new,new'⟩ := shows_.sequenceSwap shows' ordered bound bound'
  have ran := shows_.mutSequenceSwap shows' ordered bound bound'
  have few : rounds (j - i) ≤ j - i := Nat.min_le_left _ _
  have last := shows_.last
  have last' := shows'.last
  have inside : i + rounds (j - i) ≤ w.last - w.first := by omega
  have inside' : k + rounds (j - i) ≤ w'.last - w'.first := by omega
  rw [swap_fits_iff shows_ shows',swap_alike_iff emitted ran]
  by_cases same : w.vector = w'.vector
  · obtain rfl : vs = vs' := Option.some.inj (shows_.vector.symm.trans (same ▸ shows'.vector))
    rw [if_pos same,alike_iff new (shows_.rewritten (swapLoop_length _ _ _ _)),
      alike_iff new' (same ▸ shows'.rewritten (swapLoop_length _ _ _ _)),shows_.contents,
      shows'.contents,shared_iff shows_.ordered shows'.ordered shows_.bound shows'.bound inside inside']
    exact ⟨fun repeats _ => repeats,fun repeats => repeats same⟩
  · rw [if_neg same,swapBetween_comm]
    have left := (shows_.rewrite (swapBetween_length vs vs' (w.first + i) (w'.first + k)
      (rounds (j - i)))).write_other
      (shows'.write_other shows_.vector (Ne.symm same) _).vector same
      (swapBetween vs' vs (w'.first + k) (w.first + i) (rounds (j - i))).1
    have left' := (shows'.write_other shows_.vector (Ne.symm same)
      (swapBetween vs vs' (w.first + i) (w'.first + k) (rounds (j - i))).1).rewrite
      (swapBetween_length vs' vs (w'.first + k) (w.first + i) (rounds (j - i)))
    rw [alike_iff new left.contents_eq,alike_iff new' left'.contents_eq,shows_.contents,
      shows'.contents,slice_swapBetween shows_.ordered shows'.ordered shows_.bound shows'.bound
        inside inside',
      slice_swapBetween shows'.ordered shows_.ordered shows'.bound shows_.bound inside' inside]
    exact iff_of_true ⟨rfl,rfl⟩ fun shared => absurd shared same

end MultiVersion

theorem Shows.sequenceRemove_bound (shows_ : Shows heap sequence w vs xs) {made : Heap × Nat}
    {i j : Nat} (short : j < endOfSequence) (ran : heap.sequenceRemove sequence i j = some made) :
    j ≤ xs.length := by
  have resolved : heap.resolve sequence j = some j := by
    rw [Heap.resolve,if_neg (by omega)]
  have last := shows_.last
  unfold Heap.sequenceRemove at ran
  simp only [shows_.window,resolved,Option.bind_eq_bind,Option.bind_some,Option.bind_eq_some_iff] at ran
  obtain ⟨size,_,first,_,prefix_,_,container,_,suffix_,isRange,_⟩ := ran
  simp only [Heap.range,shows_.vector,Option.bind_eq_bind,Option.bind_some] at isRange
  split_ifs at isRange with inside
  omega

theorem Shows.sequenceCopy (shows_ : Shows heap sequence w vs xs) {i j : Nat} (ordered : i ≤ j)
    (bound : j ≤ xs.length) : heap.sequenceCopy sequence i j = some
      ((heap.write w.vector (.sequence (splice vs (w.first + i) (j - i) []))).allocate
        (.sequence (slice xs i j))) := by
  simp only [Heap.sequenceCopy,shows_.resolve bound,shows_.resolve (Nat.le_trans ordered bound),
    shows_.window,shows_.range ordered bound,shows_.erase ordered bound,Option.bind_eq_bind,
    Option.bind_some]
  rw [if_pos ordered]
  rfl

theorem Shows.mutSequenceSplit (shows_ : Shows heap sequence w vs xs) {i j : Nat} (ordered : i ≤ j)
    (bound : j ≤ xs.length) :
    heap.mutSequenceSplit sequence i j = heap.sequenceCopy sequence i j := by
  rw [shows_.sequenceCopy ordered bound]
  simp only [Heap.mutSequenceSplit,shows_.window,shows_.range ordered bound,
    shows_.erase ordered bound,Option.bind_eq_bind,Option.bind_some]
  rw [if_pos ordered]
  rfl

theorem Addressable.write (addressable : Addressable heap) {handle : Nat} {ys : List Word}
    (short : ys.length < endOfSequence) : Addressable (heap.write handle (.sequence ys)) := by
  intro other zs isVector
  rw [vector_eq] at isVector
  by_cases same : handle = other
  · subst same
    have below := get_lt isVector
    rw [Heap.write,List.length_set] at below
    rw [get_write below] at isVector
    obtain rfl := Contents.sequence.inj (Object.owned.inj (Option.some.inj isVector))
    exact short
  · rw [get_write_ne same] at isVector
    exact addressable other zs (vector_eq.mpr isVector)

theorem Addressable.allocate (addressable : Addressable heap) {ys : List Word}
    (short : ys.length < endOfSequence) : Addressable (heap.allocate (.sequence ys)).1 := by
  intro other zs isVector
  rw [vector_eq] at isVector
  by_cases old : other < heap.memory.length
  · rw [(Extends.allocate heap (.sequence ys)).get old] at isVector
    exact addressable other zs (vector_eq.mpr isVector)
  · have below := get_lt isVector
    simp only [Heap.allocate,Heap.add,List.length_append,List.length_singleton] at below
    obtain rfl : other = heap.memory.length := by omega
    have new : (heap.allocate (.sequence ys)).1.get heap.memory.length =
        some (.owned (.sequence ys)) := by
      simp [Heap.get,Heap.allocate,Heap.add]
    rw [new] at isVector
    obtain rfl := Contents.sequence.inj (Object.owned.inj (Option.some.inj isVector))
    exact short

namespace MultiVersion

theorem split_alike_iff {i j : Nat} {copied : Heap × Nat}
    (ran : heap.sequenceCopy sequence i j = some copied)
    (same : heap.mutSequenceSplit sequence i j = heap.sequenceCopy sequence i j) :
    (split sequence i j).Agrees heap ↔ ∃ made, copied.1.sequenceRemove sequence i j = some made ∧
      Alike made.1 copied.1 copied.2 copied.2 ∧ Alike made.1 copied.1 made.2 sequence := by
  simp only [Agrees,constructed,MultiVersion.inPlace,same,ran,Option.bind_eq_bind,Option.bind_some,
    Option.pure_def,Option.bind_eq_some_iff,Option.some.injEq]
  constructor
  · rintro ⟨_,_,⟨made,removed,rfl⟩,rfl,alike⟩
    simp only [List.forall₂_cons,List.Forall₂.nil,and_true] at alike
    exact ⟨made,removed,alike⟩
  · rintro ⟨made,removed,alike⟩
    refine ⟨_,_,⟨made,removed,rfl⟩,rfl,?_⟩
    simp only [List.forall₂_cons,List.Forall₂.nil,and_true]
    exact alike

theorem split_agrees_iff (shows_ : Shows heap sequence w vs xs) (addressable : Addressable heap)
    {i j : Nat} (ordered : i ≤ j) (bound : j ≤ xs.length) :
    (split sequence i j).Agrees heap ↔ (split sequence i j).Fits heap := by
  have short := shows_.short'
  have last := shows_.last
  have inside := shows_.bound
  have addressable' : Addressable ((heap.write w.vector
      (.sequence (splice vs (w.first + i) (j - i) []))).allocate (.sequence (slice xs i j))).1 := by
    refine (addressable.write ?_).allocate ?_
    · have short' := shows_.short
      rw [splice_length vs [] (by omega),List.length_nil]
      omega
    · rw [slice_length xs bound]
      omega
  rw [split_alike_iff (shows_.sequenceCopy ordered bound) (shows_.mutSequenceSplit ordered bound)]
  constructor
  · rintro ⟨made,removed,_,zs,new,left⟩
    obtain ⟨w',vs',shows'⟩ := exists_shows addressable' left
    have bound' := shows'.sequenceRemove_bound (by omega) removed
    rw [shows'.sequenceRemove ordered bound'] at removed
    obtain rfl := Option.some.inj removed
    rw [allocate_contents] at new
    have length := congrArg List.length (Contents.sequence.inj (Option.some.inj new))
    rw [splice_length zs [] (by omega),List.length_nil] at length
    simp only [Fits]
    omega
  · rintro rfl
    have unsplit : (heap.write w.vector (.sequence vs)).contents sequence = some (.sequence xs) := by
      rw [shows_.rewritten rfl,← shows_.contents]
    rw [Nat.sub_self,splice_nothing] at addressable' ⊢
    have left : ((heap.write w.vector (.sequence vs)).allocate
        (.sequence (slice xs i i))).1.contents sequence = some (.sequence xs) :=
      (allocate_unchanged unsplit).trans unsplit
    obtain ⟨w',vs',shows'⟩ := exists_shows addressable' left
    refine ⟨_,shows'.sequenceRemove (Nat.le_refl i) bound,?_,?_⟩
    · exact ⟨_,(allocate_unchanged (allocate_contents _)).trans (allocate_contents _),
        allocate_contents _⟩
    · refine ⟨xs,?_,left⟩
      rw [allocate_contents,Nat.sub_self,splice_nothing]

end MultiVersion

theorem Shows.grown (shows_ : Shows heap sequence w vs xs) {appended : Nat} {w' : Window}
    {vs' ys : List Word} (shows' : Shows heap appended w' vs' ys) (apart : w.vector ≠ appended)
    (zs : List Word) :
    (heap.write w.vector (.sequence (vs ++ zs))).window appended = some w' ∧
      (heap.write w.vector (.sequence (vs ++ zs))).range w'.vector w'.first w'.last = some ys := by
  by_cases same : w.vector = w'.vector
  · obtain rfl : vs = vs' := Option.some.inj (shows_.vector.symm.trans (same ▸ shows'.vector))
    have bound := shows'.bound
    constructor
    · rw [← shows'.window]
      simp only [Heap.window,get_write_ne apart]
    · simp only [Heap.range,← same,shows_.written,Option.bind_eq_bind,Option.bind_some]
      rw [if_pos ⟨shows'.ordered,by rw [List.length_append]; omega⟩,shows'.contents]
      simp only [slice,Option.some.injEq]
      rw [List.drop_append_of_le_length (by have ordered := shows'.ordered; omega),
        List.take_append_of_le_length (by rw [List.length_drop]; omega)]
  · have other := shows'.write_other shows_.vector (Ne.symm same) (vs ++ zs)
    exact ⟨other.window,other.range_all⟩

theorem Shows.mutSequenceAppend (shows_ : Shows heap sequence w vs xs) {appended : Nat} {w' : Window}
    {vs' ys : List Word} (shows' : Shows heap appended w' vs' ys) (apart : w.vector ≠ appended) :
    heap.mutSequenceAppend sequence appended =
      if w.vector = w'.vector ∧ w'.first ≤ w.last ∧ w.last < w'.last then none
      else (copyInto (vs ++ List.replicate ys.length 0) w.last ys).map fun filled =>
        (heap.write w.vector (.sequence filled)).delete appended := by
  obtain ⟨isWindow,isRange⟩ := shows_.grown shows' apart (List.replicate ys.length 0)
  simp only [Heap.mutSequenceAppend,shows_.size,shows'.size,shows_.window,shows_.vector,isWindow,
    isRange,Option.bind_eq_bind,Option.bind_some,← shows_.last,write_write]
  split_ifs
  · rfl
  · cases copyInto (vs ++ List.replicate ys.length 0) w.last ys <;> rfl

/-- Nothing is appended, and what it was in is deleted. -/
theorem Shows.append_nothing (shows_ : Shows heap sequence w vs xs) {appended : Nat} {w' : Window}
    {vs' : List Word} (shows' : Shows heap appended w' vs' []) (apart : w.vector ≠ appended) :
    heap.mutSequenceAppend sequence appended = some ((heap.write w.vector (.sequence vs)).delete appended) := by
  have ran := shows_.mutSequenceAppend shows' apart
  have nothing := shows'.last
  rw [List.length_nil] at nothing
  have room : copyInto (vs ++ List.replicate ([] : List Word).length 0) w.last [] = some vs := by
    simp [copyInto,splice,shows_.bound]
  rw [if_neg (by omega),room] at ran
  exact ran

theorem Shows.append_deletes (shows_ : Shows heap sequence w vs xs) {appended : Nat} {after : Heap}
    (ran : heap.mutSequenceAppend sequence appended = some after) :
    ∃ filled,after = (heap.write w.vector (.sequence filled)).delete appended := by
  simp only [Heap.mutSequenceAppend,shows_.window,shows_.vector,Option.bind_eq_bind,
    Option.bind_some,Option.bind_eq_some_iff,write_write,Option.pure_def] at ran
  obtain ⟨_,_,_,_,_,_,_,_,ran⟩ := ran
  split_ifs at ran
  · exact absurd ran (by simp)
  · obtain ⟨filled,_,same⟩ := Option.bind_eq_some_iff.mp ran
    exact ⟨filled,(Option.some.inj same).symm⟩

namespace MultiVersion

theorem append_alike_iff {appended : Nat} {made : Heap × Nat}
    (emitted : heap.sequenceInsert appended sequence endOfSequence = some made) :
    (append sequence appended).Agrees heap ↔ ∃ after,
      heap.mutSequenceAppend sequence appended = some after ∧ Alike made.1 after made.2 sequence := by
  simp only [Agrees,constructed,MultiVersion.inPlace,emitted,Option.bind_eq_bind,Option.bind_some,
    Option.pure_def,Option.bind_eq_some_iff,Option.some.injEq]
  constructor
  · rintro ⟨_,_,rfl,⟨after,ran,rfl⟩,alike⟩
    simp only [List.forall₂_cons,List.Forall₂.nil,and_true] at alike
    exact ⟨after,ran,alike⟩
  · rintro ⟨after,ran,alike⟩
    refine ⟨_,_,rfl,⟨after,ran,rfl⟩,?_⟩
    simp only [List.forall₂_cons,List.Forall₂.nil,and_true]
    exact alike

theorem append_own_agrees {appended : Nat} {w' : Window} {vs' ys : List Word}
    (shows_ : Shows heap sequence w vs xs) (shows' : Shows heap appended w' vs' ys)
    (distinct : sequence ≠ appended) (own : heap.get sequence = some (.owned (.sequence xs)))
    (isWindow : w = ⟨sequence,0,xs.length⟩) (isVector : vs = xs) :
    ∃ after, heap.mutSequenceAppend sequence appended = some after ∧
      after.contents sequence = some (.sequence (xs ++ ys)) := by
  subst isWindow isVector
  have ran := shows_.mutSequenceAppend shows' distinct
  have room := copyInto_next vs ys (Nat.le_refl ys.length)
  have bound := shows'.bound
  rw [if_neg,room,Nat.sub_self,List.replicate_zero,List.append_nil] at ran
  · refine ⟨_,ran,?_⟩
    simp only [Heap.contents,get_delete_ne (Ne.symm distinct),get_write (get_lt own)]
  · rintro ⟨same,_,beyond⟩
    obtain rfl : vs = vs' := Option.some.inj (shows_.vector.symm.trans (same ▸ shows'.vector))
    exact absurd bound (Nat.not_le.mpr beyond)

theorem delete_contents {appended vector first last : Nat} (distinct : sequence ≠ appended)
    (view : heap.get sequence = some (.view vector first last)) :
    (heap.delete appended).contents sequence =
      if vector = appended then none else heap.contents sequence := by
  simp only [Heap.contents,get_delete_ne (Ne.symm distinct),view,Heap.range,Heap.vector]
  split_ifs with same
  · rw [same,get_delete]
    rfl
  · rw [get_delete_ne (Ne.symm same)]

theorem append_view_agrees_iff {appended : Nat} {w' : Window} {vs' ys : List Word}
    (shows_ : Shows heap sequence w vs xs) (shows' : Shows heap appended w' vs' ys)
    (distinct : sequence ≠ appended)
    (view : heap.get sequence = some (.view w.vector w.first w.last)) :
    (∃ after, heap.mutSequenceAppend sequence appended = some after ∧
      after.contents sequence = some (.sequence (xs ++ ys))) ↔ ys = [] ∧ w.vector ≠ appended := by
  have view' (contents : Contents) :
      (heap.write w.vector contents).get sequence = some (.view w.vector w.first w.last) := by
    rw [get_write_ne (shows_.ne_of_view view shows_.vector),view]
  constructor
  · rintro ⟨after,ran,left⟩
    obtain ⟨filled,rfl⟩ := shows_.append_deletes ran
    rw [delete_contents distinct (view' _)] at left
    split_ifs at left with same
    have length := shows_.view_length view left
    rw [List.length_append] at length
    exact ⟨List.length_eq_zero_iff.mp (by omega),same⟩
  · rintro ⟨rfl,apart⟩
    refine ⟨_,shows_.append_nothing shows' apart,?_⟩
    rw [delete_contents distinct (view' _),if_neg apart,shows_.rewritten rfl,← shows_.contents,
      List.append_nil]

theorem append_agrees_iff {appended : Nat} {w' : Window} {vs' ys : List Word}
    (shows_ : Shows heap sequence w vs xs) (shows' : Shows heap appended w' vs' ys)
    (distinct : sequence ≠ appended) :
    (append sequence appended).Agrees heap ↔ (append sequence appended).Fits heap := by
  have emitted := shows_.sequenceInsert shows' shows_.resolve_end (Nat.le_refl _)
  have joined : splice xs xs.length 0 ys = xs ++ ys := by simp [splice]
  have fits_iff : (append sequence appended).Fits heap ↔
      Edit.isView heap sequence = false ∨ ys = [] ∧ w.vector ≠ appended := by
    simp [Fits,shows_.window,shows'.contents_eq]
  have alike_iff (after : Heap) : Alike (heap.allocate (.sequence (xs ++ ys))).1 after
      (heap.allocate (.sequence (xs ++ ys))).2 sequence ↔
      after.contents sequence = some (.sequence (xs ++ ys)) := by
    simp only [Alike,allocate_contents,Option.some.injEq,Contents.sequence.injEq,exists_eq_left']
  rw [joined] at emitted
  rw [append_alike_iff emitted,fits_iff]
  simp only [alike_iff]
  rcases shows_.own_or_view with ⟨own,isWindow,isVector⟩ | view
  · exact iff_of_true (append_own_agrees shows_ shows' distinct own isWindow isVector)
      (.inl (by simp [Edit.isView,own]))
  · rw [append_view_agrees_iff shows_ shows' distinct view]
    simp [Edit.isView,view]

end MultiVersion

end

namespace MultiVersion

/-- The translation is right exactly for the operations that fit. -/
theorem translated_iff (heap : Heap) (addressable : Addressable heap) (operation : MultiVersion)
    (inRange : operation.InRange heap) : operation.Agrees heap ↔ operation.Fits heap := by
  cases operation with
  | append collection appended =>
    obtain ⟨distinct,⟨xs,found⟩,ys,found'⟩ := inRange
    obtain ⟨w,vs,shows_⟩ := exists_shows addressable found
    obtain ⟨w',vs',shows'⟩ := exists_shows addressable found'
    exact append_agrees_iff shows_ shows' distinct
  | split collection i j =>
    obtain ⟨xs,found,ordered,bound⟩ := inRange
    obtain ⟨w,vs,shows_⟩ := exists_shows addressable found
    exact split_agrees_iff shows_ addressable ordered bound
  | swap collection i j collection' i' =>
    obtain ⟨xs,ys,found,found',ordered,bound,bound'⟩ := inRange
    obtain ⟨w,vs,shows_⟩ := exists_shows addressable found
    obtain ⟨w',vs',shows'⟩ := exists_shows addressable found'
    exact swap_agrees_iff shows_ shows' ordered bound bound'

theorem translated_iff_viewed : (swap 0 0 1 0 2).Agrees Edit.viewed ↔
    (swap 0 0 1 0 2).Fits Edit.viewed :=
  translated_iff Edit.viewed Edit.viewed_addressable (swap 0 0 1 0 2)
    ⟨[1,2,3],[1,2,3],rfl,rfl,by decide,by decide,by decide⟩

/-- Splitting the first element off removes the second one too. -/
theorem split_loses : (split 0 0 1).InRange Heap.three ∧ ¬ (split 0 0 1).Agrees Heap.three := by
  refine ⟨⟨[1,2,3],rfl,by decide,by decide⟩,?_⟩
  rintro ⟨made,after,emitted,ran,alike⟩
  obtain rfl := Option.some.inj emitted
  obtain rfl := Option.some.inj ran
  simp only [List.forall₂_cons] at alike
  obtain ⟨_,⟨xs,new,left⟩,_⟩ := alike
  have remaining : [3] = xs := Contents.sequence.inj (Option.some.inj new)
  have inPlace : [2,3] = xs := Contents.sequence.inj (Option.some.inj left)
  exact absurd (remaining.trans inPlace.symm) (by decide)

end MultiVersion

end Runtime
end Memoir
