import Memoir.VectorWindow

/-! Runs of the operations of the vector backend. -/
namespace Memoir
namespace VectorBackend
open Memoir.Runtime (sum difference)

variable {α : Type} {type : CType α}

namespace Vector

variable {vec : Vector type} {start first last : Nat}

theorem insertElementInPlace_safe_iff (bounded : vec.Bounded) (inside : start ≤ vec.size) (value : α) :
    Safe (vec.insertElementInPlace start value) ↔ vec.back + 1 ≤ vec.maxSize := by
  have small := bounded.maxSize_lt
  have size := bounded.size_eq
  have upper := bounded.2
  obtain ⟨startIdx,ordered,_⟩ := bounded.startIdx_eq inside
  have back : sum vec.back 1 = vec.back + 1 := sum_eq (by omega)
  unfold insertElementInPlace
  dsimp only
  by_cases room : vec.back + 1 ≤ vec.maxSize
  · rw [iff_true_right room]
    rcases Nat.lt_or_ge (sum vec.front start) vec.back with before | atEnd
    · obtain ⟨moved,copied,length,_⟩ := bounded.moveTail inside room
      have place : sum vec.front start < moved.length := by omega
      obtain ⟨stored,written,length',_⟩ := Buffer.store_of_lt value place
      rw [if_pos before,copied]
      simp only [ok_bind,written,back]
      exact ⟨Nat.le_add_right_of_le bounded.1,room,length'.trans length⟩
    · have place : sum vec.front start < vec.storage.length := by
        rw [bounded.whole]
        omega
      obtain ⟨stored,written,length',_⟩ := Buffer.store_of_lt value place
      rw [if_neg (by omega)]
      simp only [ok_bind,written,back]
      exact ⟨Nat.le_add_right_of_le bounded.1,room,length'.trans bounded.whole⟩
  · rw [iff_false_right room]
    intro safe
    rcases Nat.lt_or_ge (sum vec.front start) vec.back with before | atEnd
    · rw [if_pos before,bounded.moveTail_escapes (by omega) (by omega) room] at safe
      exact safe rfl
    · have outside : ¬sum vec.front start < vec.storage.length := by
        rw [bounded.whole]
        omega
      rw [if_neg (by omega)] at safe
      simp only [ok_bind,Buffer.store_escapes value outside] at safe
      exact safe rfl

theorem insertElementFresh_safe_iff (bounded : vec.Bounded) (full : vec.size = vec.maxSize)
    (value : α) (fits : type.Fits (2 * vec.maxSize)) :
    Safe (vec.insertElementFresh value (2 * vec.maxSize)) ↔ 0 < vec.maxSize := by
  have small := bounded.maxSize_lt
  have small' := fits.small
  have size := bounded.size_eq
  have upper := bounded.2
  have lower := bounded.1
  have front : vec.front = 0 := by omega
  have source : 0 + vec.maxSize ≤ vec.storage.elements.length :=
    Nat.le_of_eq ((Nat.zero_add _).trans bounded.whole.symm)
  have after : sum vec.maxSize 1 = vec.maxSize + 1 := sum_eq (by omega)
  obtain ⟨storage,allocated,length⟩ := Buffer.malloc_of_fits fits
  unfold insertElementFresh
  simp only [full,front,allocated,ok_bind,after]
  generalize vec.maxSize = n at *
  rcases Nat.eq_zero_or_pos n with rfl | some
  · rw [Buffer.store_escapes value (by omega)]
    exact ⟨fun safe => absurd rfl safe,fun some => absurd some (Nat.lt_irrefl _)⟩
  · rw [iff_true_right some,difference_eq (by omega) (by omega),sum_eq (by omega),sum_eq (by omega),
      sum_eq (by omega)]
    have place : 0 + (2 * n - (n + 1)) / 2 < storage.length := by omega
    obtain ⟨storage₁,written,length₁,_⟩ := Buffer.store_of_lt value place
    have fits₁ : 0 + (2 * n - (n + 1)) / 2 + 1 + n ≤ storage₁.length := by omega
    obtain ⟨storage₂,copied,length₂,_⟩ := Buffer.copy_of_bounds fits₁ source
    simp only [written,ok_bind,copied]
    refine ⟨Nat.le_add_right _ _,?_,(length₂.trans length₁).trans length⟩
    dsimp only
    omega

/-- The growth doubles the buffer, and it is taken only when the window fills the buffer. -/
def RoomForElement (vec : Vector type) : Prop :=
  vec.back < vec.maxSize ∨ vec.front = 0 ∧ 0 < vec.maxSize

theorem insertElement_safe_iff (bounded : vec.Bounded) (inside : start ≤ vec.size) (value : α) :
    Safe (vec.insertElement start value) ↔ vec.RoomForElement := by
  have small := bounded.maxSize_lt
  have size := bounded.size_eq
  have upper := bounded.2
  have lower := bounded.1
  have doubled : vec.maxSize <<< 1 % 2 ^ 64 = 2 * vec.maxSize := by
    rw [Nat.shiftLeft_eq]
    omega
  unfold insertElement RoomForElement
  dsimp only
  rw [sum_eq (by omega),doubled]
  by_cases grows : vec.maxSize < vec.size + 1
  · have full : vec.size = vec.maxSize := by omega
    have room : (vec.back < vec.maxSize ∨ vec.front = 0 ∧ 0 < vec.maxSize) ↔ 0 < vec.maxSize := by
      omega
    rw [if_pos grows,room]
    have whole : type.Fits vec.maxSize := bounded.whole ▸ vec.storage.fits
    by_cases fits : type.Fits (2 * vec.maxSize)
    · by_cases atHead : 0 < start
      · obtain ⟨storage,moved,length,_⟩ := vec.storage.realloc_of_fits fits
        have inside' : start ≤ Vector.size { vec with maxSize := 2 * vec.maxSize, storage } := inside
        rw [if_pos atHead,moved,ok_bind,
          insertElementInPlace_safe_iff (bounded.grown (by omega) length) inside' value]
        dsimp only
        omega
      · rw [if_neg atHead]
        exact insertElementFresh_safe_iff bounded full value fits
    · have some : 0 < vec.maxSize := by
        apply Nat.pos_of_ne_zero
        intro none
        rw [none] at fits
        exact fits (fits_zero type)
      have large : type.TooLarge (2 * vec.maxSize) := by
        by_contra small
        exact whole.double ⟨fits,small⟩
      rw [iff_true_right some]
      by_cases atHead : 0 < start
      · rw [if_pos atHead,vec.storage.realloc_noMemory large]
        exact Fault.noConfusion
      · rw [if_neg atHead]
        unfold insertElementFresh
        rw [Buffer.malloc_noMemory large]
        exact Fault.noConfusion
  · rw [if_neg grows,insertElementInPlace_safe_iff bounded inside value]
    omega

theorem overlays_length (type : CType α) (bytes : Nat) (news olds : List α) :
    (Buffer.overlays type bytes news olds).length = min news.length olds.length := by
  induction news generalizing bytes olds with
  | nil => simp [Buffer.overlays]
  | cons new news ih =>
    cases olds with
    | nil => simp [Buffer.overlays]
    | cons old olds =>
      rw [Buffer.overlays,List.length_cons,ih,List.length_cons,List.length_cons,Nat.succ_min_succ]

theorem touched_pos (type : CType α) {bytes : Nat} (some : 0 < bytes) :
    0 < Buffer.touched type bytes := by
  have positive := type.width_pos
  exact Nat.div_pos (by omega) positive

theorem overlays_getElem? (type : CType α) (bytes i : Nat) (news olds : List α) :
    (Buffer.overlays type bytes news olds)[i]? =
      news[i]?.bind fun new => olds[i]?.map (type.overlay (bytes - i * type.width) new) := by
  induction news generalizing bytes i olds with
  | nil => simp [Buffer.overlays]
  | cons new news ih =>
    cases olds with
    | nil => cases i <;> simp [Buffer.overlays]
    | cons old olds =>
      cases i with
      | zero => simp [Buffer.overlays]
      | succ i =>
        rw [Buffer.overlays,List.getElem?_cons_succ,ih,List.getElem?_cons_succ,
          List.getElem?_cons_succ,Nat.sub_sub,Nat.succ_mul,Nat.add_comm]

/-- The elements from `index` on have the first bytes of those from `start` on over them. -/
theorem moveBytes_of_bounds {buffer : Buffer type} {index start bytes : Nat} (ordered : index ≤ start)
    (inside : start + Buffer.touched type bytes ≤ buffer.length) :
    ∃ after,buffer.moveBytes index start bytes = .ok after ∧ after.length = buffer.length ∧
      (∀ i < Buffer.touched type bytes,after.elements[index + i]? =
        buffer.elements[start + i]?.bind fun new =>
          buffer.elements[index + i]?.map (type.overlay (bytes - i * type.width) new)) ∧
      ∀ i,i < index ∨ index + Buffer.touched type bytes ≤ i →
        after.elements[i]? = buffer.elements[i]? := by
  unfold Buffer.length at inside
  have front : (buffer.elements.take start).length = start := List.length_take_of_le (by omega)
  have moved : (Buffer.overlays type bytes (buffer.elements.drop start)
      (buffer.elements.drop index)).length = buffer.elements.length - start := by
    rw [overlays_length,List.length_drop,List.length_drop]
    omega
  have source : start + Buffer.touched type bytes ≤ (buffer.elements.take start ++
      Buffer.overlays type bytes (buffer.elements.drop start) (buffer.elements.drop index)).length := by
    rw [List.length_append,moved,front]
    omega
  have target : index + Buffer.touched type bytes ≤ buffer.length := by
    unfold Buffer.length
    omega
  obtain ⟨after,copied,length,elements⟩ := Buffer.copy_of_bounds target source
  have count : (slice (buffer.elements.take start ++ Buffer.overlays type bytes
      (buffer.elements.drop start) (buffer.elements.drop index)) start
        (start + Buffer.touched type bytes)).length = Buffer.touched type bytes := by
    rw [Runtime.slice_length _ source]
    omega
  refine ⟨after,copied,length,?_,?_⟩
  · intro i below
    rw [elements,splice_getElem? _ _ (by omega),if_neg (by omega),count,if_pos (by omega),
      Runtime.slice_getElem?,if_pos (by omega),List.getElem?_append_right (by omega),front,
      overlays_getElem?,List.getElem?_drop,List.getElem?_drop]
    have same : start + (index + i - index) - start = i := by omega
    rw [same]
  · rintro i (before | behind)
    · rw [elements,splice_getElem? _ _ (by omega),if_pos before]
    · rw [elements,splice_getElem? _ _ (by omega),if_neg (by omega),count,if_neg (by omega),
        Nat.sub_add_cancel (by omega)]

theorem moveBytes_escapes {buffer : Buffer type} {index start bytes : Nat} (some : 0 < bytes)
    (ordered : index ≤ start) (outside : ¬start + Buffer.touched type bytes ≤ buffer.length) :
    buffer.moveBytes index start bytes = .error .outOfBuffer := by
  have positive := touched_pos type some
  apply Buffer.copy_escapes (by omega)
  intro bounds
  have below := bounds.2
  rw [List.length_append,overlays_length,List.length_take,List.length_drop,List.length_drop] at below
  unfold Buffer.length at outside
  omega

/-- When the elements in the middle are removed and fewer are behind them than in front of them, as
many bytes as there are elements behind are read, from beyond the end of the window. -/
def RoomForRemoval (vec : Vector type) (first last : Nat) : Prop :=
  0 < first → last < vec.size → vec.size - last < first →
    vec.back + (last - first) + Buffer.touched type (vec.size - last) ≤ vec.maxSize

/-- The removal in numbers that do not wrap around. -/
theorem remove_eq (bounded : vec.Bounded) (ordered : first ≤ last) (inside : last ≤ vec.size) :
    vec.remove first last =
      if last = vec.size then .ok { vec with back := vec.back - (last - first) }
      else if first = 0 then .ok { vec with front := vec.front + (last - first) }
      else if vec.size - last < first then do
        let storage ← vec.storage.moveBytes (vec.front + first) (vec.back + (last - first))
          (vec.size - last)
        return ⟨vec.front,vec.back - (last - first),vec.maxSize,storage⟩
      else do
        let storage ← vec.storage.copy (vec.front + (last - first)) vec.storage.elements vec.front first
        return ⟨vec.front + (last - first),vec.back,vec.maxSize,storage⟩ := by
  have small := bounded.maxSize_lt
  have size := bounded.size_eq
  have upper := bounded.2
  have lower := bounded.1
  have removed : difference last first = last - first := difference_eq ordered (by omega)
  have behind : difference vec.size last = vec.size - last := difference_eq inside (by omega)
  have shorter : difference vec.back (last - first) = vec.back - (last - first) :=
    difference_eq (by omega) (by omega)
  have start : difference vec.back (difference first last) = vec.back + (last - first) := by
    unfold difference
    omega
  have target : difference (sum vec.front last) first = vec.front + (last - first) := by
    rw [sum_eq (by omega),difference_eq (by omega) (by omega)]
    omega
  have place : sum vec.front first = vec.front + first := sum_eq (by omega)
  have moved : sum vec.front (last - first) = vec.front + (last - first) := sum_eq (by omega)
  unfold remove
  dsimp only
  rw [removed,behind,shorter,start,target,place,moved]

theorem remove_safe_iff (bounded : vec.Bounded) (ordered : first ≤ last) (inside : last ≤ vec.size) :
    Safe (vec.remove first last) ↔ vec.RoomForRemoval first last := by
  have size := bounded.size_eq
  have upper := bounded.2
  have lower := bounded.1
  have whole := bounded.whole
  rw [remove_eq bounded ordered inside]
  unfold RoomForRemoval
  split_ifs with atEnd atHead fewer
  · rw [iff_true_right (by omega)]
    refine ⟨?_,Nat.le_trans (Nat.sub_le _ _) upper,whole⟩
    dsimp only
    omega
  · rw [iff_true_right (by omega)]
    refine ⟨?_,upper,whole⟩
    dsimp only
    omega
  · constructor
    · intro safe _ _ _
      by_contra outside
      rw [← whole] at outside
      rw [moveBytes_escapes (by omega) (by omega) outside] at safe
      exact safe rfl
    · intro room
      obtain ⟨after,moved,length,_⟩ := moveBytes_of_bounds (show vec.front + first ≤ _ by omega)
        ((room (by omega) (by omega) fewer).trans_eq whole.symm)
      rw [moved,ok_bind]
      refine ⟨?_,Nat.le_trans (Nat.sub_le _ _) upper,length.trans whole⟩
      dsimp only
      omega
  · rw [iff_true_right (by omega)]
    have fits : vec.front + (last - first) + first ≤ vec.storage.length := by omega
    have source : vec.front + first ≤ vec.storage.elements.length := by
      change _ ≤ vec.storage.length
      omega
    obtain ⟨after,copied,length,_⟩ := Buffer.copy_of_bounds fits source
    rw [copied,ok_bind]
    refine ⟨?_,upper,length.trans whole⟩
    dsimp only
    omega

theorem swapLoop_length {storage : Buffer type} {idx count : Nat}
    (bound : first + (idx + count) ≤ storage.length) (bound' : start + (idx + count) ≤ storage.length) :
    ∃ after,swapLoop storage first start idx count = .ok after ∧ after.length = storage.length := by
  induction count generalizing storage idx with
  | zero => exact ⟨storage,rfl,rfl⟩
  | succ count ih =>
    have small := storage.small
    obtain ⟨tmp,loaded⟩ := Buffer.load_of_lt (show start + idx < storage.length by omega)
    obtain ⟨value,loaded'⟩ := Buffer.load_of_lt (show first + idx < storage.length by omega)
    obtain ⟨storage₁,written,length₁,_⟩ :=
      Buffer.store_of_lt value (show start + idx < storage.length by omega)
    obtain ⟨storage₂,written',length₂,_⟩ :=
      Buffer.store_of_lt tmp (show first + idx < storage₁.length by omega)
    have rest : first + (idx + 1 + count) ≤ storage₂.length := by omega
    obtain ⟨after,swapped,length⟩ := ih rest (by omega)
    refine ⟨after,?_,by omega⟩
    rw [swapLoop,sum_eq (by omega),sum_eq (by omega),loaded,ok_bind,loaded',ok_bind,written,ok_bind,
      written',ok_bind]
    exact swapped

theorem swap_safe (bounded : vec.Bounded) (ordered : first ≤ last) (inside : last ≤ vec.size)
    (inside' : start + (last - first) ≤ vec.size) : Safe (vec.swap first last start) := by
  have small := bounded.maxSize_lt
  have size := bounded.size_eq
  have upper := bounded.2
  have lower := bounded.1
  have whole := bounded.whole
  have bound : first + vec.front + (0 + (last - first)) ≤ vec.storage.length := by omega
  have bound' : start + vec.front + (0 + (last - first)) ≤ vec.storage.length := by omega
  obtain ⟨after,swapped,length⟩ := swapLoop_length bound bound'
  unfold swap
  rw [difference_eq ordered (by omega),sum_eq (by omega),sum_eq (by omega),swapped,ok_bind]
  exact ⟨lower,upper,length.trans whole⟩

theorem allocate_safe_iff (type : CType α) {n : Nat} (small : n < 2 ^ 64) :
    Safe (allocate type n) ↔ n ≤ 2 ^ 63 ∧ ¬type.Wraps (nextPow2 (difference n 1)) := by
  have word : difference n 1 < 2 ^ 64 := Nat.mod_lt _ (by omega)
  have sizes := nextPow2_cases word
  have below : n ≤ 2 ^ 63 → nextPow2 (difference n 1) ≤ 2 ^ 63 := by
    intro below
    rcases sizes with ⟨small,_⟩ | ⟨_,none⟩
    · exact nextPow2_le word small
    · omega
  have zero : ¬n ≤ 2 ^ 63 → nextPow2 (difference n 1) = 0 := by
    intro large
    unfold difference at sizes ⊢
    omega
  unfold allocate
  dsimp only
  by_cases fits : type.Fits (nextPow2 (difference n 1))
  · obtain ⟨storage,allocated,length⟩ := Buffer.malloc_of_fits fits
    have small' := fits.small
    have whole : ¬type.Wraps (nextPow2 (difference n 1)) := fun wraps => wraps.1 fits
    rw [allocated,ok_bind,and_iff_left whole]
    generalize nextPow2 (difference n 1) = m at *
    have bounded : Safe (pure ⟨difference m n / 2,sum (difference m n / 2) n,m,storage⟩) ↔
        difference m n / 2 ≤ sum (difference m n / 2) n ∧ sum (difference m n / 2) n ≤ m :=
      ⟨fun safe => ⟨safe.ordered,safe.inside⟩,fun inside => ⟨inside.1,inside.2,length⟩⟩
    rw [bounded]
    unfold difference sum at *
    omega
  · have inside : n ≤ 2 ^ 63 := by
      by_contra large
      rw [zero large] at fits
      exact fits (fits_zero type)
    rw [and_iff_right inside]
    by_cases large : type.TooLarge (nextPow2 (difference n 1))
    · rw [Buffer.malloc_noMemory large]
      exact iff_of_true Fault.noConfusion fun wraps => wraps.2 large
    · have wraps : type.Wraps (nextPow2 (difference n 1)) := ⟨fits,large⟩
      refine iff_of_false ?_ (not_not_intro wraps)
      rcases Buffer.malloc_short wraps with escaped | ⟨storage,allocated,short⟩
      · rw [escaped]
        exact fun safe => safe rfl
      · rw [allocated,ok_bind]
        intro safe
        have whole : storage.length = nextPow2 (difference n 1) := safe.whole
        omega

end Vector

namespace State

variable {state : State type} {vec vec2 : Nat} {v v2 : Vector type}

def Bounded (state : State type) : Prop := ∀ vec ∈ state,vec.Bounded

def Safe : Except Fault (State type) → Prop
  | .ok after => after.Bounded
  | .error fault => fault ≠ .outOfBuffer

/-- The vectors are there, and the indices and ranges are inside them. -/
def InRange (state : State type) : Operation α → Prop
  | .allocate n => n < 2 ^ 64
  | .insertElement vec start _ => ∃ v,state[vec]? = some v ∧ start ≤ v.size
  | .insertRange vec start vec2 first last =>
    ∃ v v2,state[vec]? = some v ∧ state[vec2]? = some v2 ∧ start ≤ v.size ∧ first ≤ last ∧
      last ≤ v2.size
  | .insert vec start vec2 => ∃ v v2,state[vec]? = some v ∧ state[vec2]? = some v2 ∧ start ≤ v.size
  | .remove vec first last => ∃ v,state[vec]? = some v ∧ first ≤ last ∧ last ≤ v.size
  | .swap vec first last start =>
    ∃ v,state[vec]? = some v ∧ first ≤ last ∧ last ≤ v.size ∧ start + (last - first) ≤ v.size

def sourceOf (vec vec2 : Nat) (v2 : Vector type) : Source type :=
  if vec2 = vec then .itself else .other v2

def HasRoom (state : State type) : Operation α → Prop
  | .allocate n => n ≤ 2 ^ 63 ∧ ¬type.Wraps (nextPow2 (difference n 1))
  | .insertElement vec _ _ => ∀ v,state[vec]? = some v → v.RoomForElement
  | .insertRange vec start vec2 first last =>
    ∀ v,state[vec]? = some v → ∀ v2,state[vec2]? = some v2 →
      v.Room start (sourceOf vec vec2 v2) (last - first)
  | .insert vec start vec2 =>
    ∀ v,state[vec]? = some v → ∀ v2,state[vec2]? = some v2 →
      v.Room start (sourceOf vec vec2 v2) v2.size
  | .remove vec first last => ∀ v,state[vec]? = some v → v.RoomForRemoval first last
  | .swap _ _ _ _ => True

theorem Bounded.found (bounded : state.Bounded) (found : state[vec]? = some v) : v.Bounded :=
  bounded v (List.mem_of_getElem? found)

theorem update_safe_iff (bounded : state.Bounded) (found : state[vec]? = some v)
    (operation : Vector type → Except Fault (Vector type)) :
    Safe (state.update vec operation) ↔ Vector.Safe (operation v) := by
  unfold update vector
  rw [found]
  dsimp only
  rw [ok_bind]
  cases result : operation v with
  | error fault => exact Iff.rfl
  | ok after =>
    have inside := (List.getElem?_eq_some_iff.mp found).1
    constructor
    · intro safe
      exact safe after (List.mem_set inside after)
    · intro safe other member
      rcases List.mem_or_eq_of_mem_set member with old | rfl
      · exact bounded other old
      · exact safe

theorem source_eq (found : state[vec2]? = some v2) :
    state.source vec vec2 = .ok (sourceOf vec vec2 v2) := by
  unfold source sourceOf vector
  rw [found]
  split_ifs <;> rfl

theorem sourceOf_vector (found : state[vec]? = some v) (found' : state[vec2]? = some v2) :
    (sourceOf vec vec2 v2).vector v = v2 := by
  unfold sourceOf
  split_ifs with same
  · subst same
    exact Option.some.inj (found.symm.trans found')
  · rfl

/-- One step keeps the windows inside the buffers, and accesses nothing outside them, just when it
has room. -/
theorem step_safe_iff (bounded : state.Bounded) (operation : Operation α)
    (inRange : state.InRange operation) : Safe (state.step operation) ↔ state.HasRoom operation := by
  cases operation with
  | allocate n =>
    refine Iff.trans ?_ (Vector.allocate_safe_iff type inRange)
    change Safe (allocate type n >>= fun vec => .ok (state ++ [vec])) ↔ _
    cases allocate type n with
    | error fault => exact Iff.rfl
    | ok vec =>
      constructor
      · intro safe
        exact safe vec (by simp)
      · intro safe other member
        rcases List.mem_append.mp member with old | new
        · exact bounded other old
        · rw [List.mem_singleton.mp new]
          exact safe
  | insertElement vec start value =>
    obtain ⟨v,found,inside⟩ := inRange
    refine (update_safe_iff bounded found _).trans ?_
    rw [Vector.insertElement_safe_iff (bounded.found found) inside value]
    simp only [HasRoom,found,Option.some.injEq,forall_eq']
  | insertRange vec start vec2 first last =>
    obtain ⟨v,v2,found,found',inside,ordered,inside'⟩ := inRange
    have source := sourceOf_vector found found'
    rw [step,source_eq found',ok_bind]
    refine (update_safe_iff bounded found _).trans ?_
    rw [Vector.insertRange_safe_iff (bounded.found found) inside ordered _
      (by rw [source]; exact bounded.found found') (by rwa [source])]
    simp only [HasRoom,found,found',Option.some.injEq,forall_eq']
  | insert vec start vec2 =>
    obtain ⟨v,v2,found,found',inside⟩ := inRange
    have source := sourceOf_vector found found'
    rw [step,source_eq found',ok_bind]
    refine (update_safe_iff bounded found _).trans ?_
    unfold Vector.insert
    rw [source,Vector.insertRange_safe_iff (bounded.found found) inside (Nat.zero_le _) _
      (by rw [source]; exact bounded.found found') (by rw [source])]
    simp only [HasRoom,found,found',Option.some.injEq,forall_eq',Nat.sub_zero]
  | remove vec first last =>
    obtain ⟨v,found,ordered,inside⟩ := inRange
    refine (update_safe_iff bounded found _).trans ?_
    rw [Vector.remove_safe_iff (bounded.found found) ordered inside]
    simp only [HasRoom,found,Option.some.injEq,forall_eq']
  | swap vec first last start =>
    obtain ⟨v,found,ordered,inside,inside'⟩ := inRange
    refine (update_safe_iff bounded found _).trans ?_
    exact iff_of_true (Vector.swap_safe (bounded.found found) ordered inside inside') trivial

end State

inductive Reachable (type : CType α) (allowed : State type → Operation α → Prop) : State type → Prop
  | start : Reachable type allowed []
  | step {state after : State type} (operation : Operation α)
      (reachable : Reachable type allowed state) (isAllowed : allowed state operation)
      (stepped : state.step operation = .ok after) : Reachable type allowed after

/-- The window of every vector is inside its buffer in every state that is reached, and no operation
accesses an element at or past the size of a buffer. -/
def WindowsInside (type : CType α) (allowed : State type → Operation α → Prop) : Prop :=
  ∀ state,Reachable type allowed state → state.Bounded ∧
    ∀ operation,allowed state operation → state.step operation ≠ .error .outOfBuffer

theorem windows_inside (type : CType α) :
    WindowsInside type fun state operation => state.InRange operation ∧ state.HasRoom operation := by
  intro state reachable
  have bounded : state.Bounded := by
    induction reachable with
    | start => exact fun vec member => absurd member List.not_mem_nil
    | step operation _ isAllowed stepped ih =>
      have safe := (State.step_safe_iff ih operation isAllowed.1).mpr isAllowed.2
      rw [stepped] at safe
      exact safe
  refine ⟨bounded,?_⟩
  intro operation isAllowed escapes
  have safe := (State.step_safe_iff bounded operation isAllowed.1).mpr isAllowed.2
  rw [escapes] at safe
  exact safe rfl

def byte : CType Nat := ⟨1,Nat.one_pos,fun bytes new old => if bytes = 0 then old else new,0⟩

def removedHead : State byte := [⟨1,4,4,⟨[0,0,0,0],by decide⟩⟩]

/-- With one element removed at the head of a full vector, one more at the back is written past the
end of the buffer: four elements still fit by their number. -/
theorem removedHead_escapes : ¬WindowsInside byte State.InRange := by
  intro inside
  have reachable : Reachable byte State.InRange removedHead :=
    .step (.remove 0 0 1) (.step (.allocate 4) .start (by decide : 4 < 2 ^ 64) rfl)
      ⟨_,rfl,by decide,by decide⟩ rfl
  exact (inside removedHead reachable).2 (.insertElement 0 3 7) ⟨_,rfl,by decide⟩ rfl

end VectorBackend
end Memoir
