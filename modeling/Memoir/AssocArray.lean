import Mathlib.Algebra.Order.GroupWithZero.Basic
import Mathlib.Algebra.Order.Ring.Int
import Mathlib.Data.Finmap
import Memoir.RuntimePurity

/-! Associative arrays of the runtime as finite maps. A run threads the array that its operations
return or change, and everything that can be observed of it is compared with the map. -/
namespace Memoir
namespace Runtime

namespace Ty

def Holds : Ty → Int → Prop
  | .integerTy bitwidth true,key => 0 < bitwidth ∧ -2 ^ (bitwidth - 1) ≤ key ∧ key < 2 ^ (bitwidth - 1)
  | .integerTy bitwidth false,key => 0 ≤ key ∧ key < 2 ^ bitwidth
  | .pointerTy,key | .referenceTy,key => 0 ≤ key ∧ key < 2 ^ 64
  | _,_ => False

/-- `key_t` has 64 bits. -/
def Fits : Ty → Prop
  | .integerTy bitwidth _ => bitwidth ≤ 64
  | _ => True

def isInt32 : Ty → Bool
  | .integerTy bitwidth _ => bitwidth = 32
  | _ => false

def truncate : Ty → Word → Word
  | .integerTy bitwidth _,word => word % 2 ^ bitwidth
  | _,word => word

def isInteger : Ty → Bool
  | .integerTy _ _ => true
  | _ => false

def isScalar : Ty → Bool
  | .integerTy _ _ | .floatTy | .doubleTy | .pointerTy | .referenceTy => true
  | _ => false

mutual

def makeable : Ty → Bool
  | .structTy fields => makeableFields fields
  | .tensorTy element lengthOfDimensions =>
    match staticLength lengthOfDimensions with
    | some lengths =>
      match flattenedLength 0 1 lengths with
      | some length =>
        !lengths.isEmpty && element.inList && decide (0 ≤ length) && (length == 0 || element.makeable)
      | none => false
    | none => false
  | .noneTy => false
  | .sequenceTy element => element.inList
  | .assocArrayTy _ _ | .integerTy _ _ | .floatTy | .doubleTy | .pointerTy | .referenceTy => true

def makeableFields : List Ty → Bool
  | [] => true
  | field :: fields => field.makeable && makeableFields fields

end

end Ty

def Key (ty : Ty) := { key : Int // ty.Holds key }

instance (ty : Ty) : DecidableEq (Key ty) := inferInstanceAs (DecidableEq (Subtype _))

def Key.passed {ty : Ty} (key : Key ty) : Word := (key.val % 2 ^ 64).toNat

/-- The key in the array: a key of 32 bits is not sign-extended. -/
def Key.stored {ty : Ty} (key : Key ty) : Word :=
  if ty.isInt32 then key.passed % 2 ^ 32 else key.passed

theorem repeated_isSome {make : Heap → Option (Heap × Word)} {made : Bool}
    (each : ∀ heap, (make heap).isSome = made) (count : Nat) (heap : Heap) :
    (repeated make count heap).isSome = (count == 0 || made) := by
  induction count generalizing heap with
  | zero => rfl
  | succ count ih =>
    have head := each heap
    simp only [repeated,Option.bind_eq_bind,Option.pure_def]
    cases found : make heap with
    | none =>
      rw [found] at head
      simp [← head]
    | some result =>
      rw [found] at head
      have rest := ih result.1
      rw [← head,Option.isSome_some,Bool.or_true] at rest
      obtain ⟨values,isValues⟩ := Option.isSome_iff_exists.mp rest
      simp [isValues,← head]

theorem initElements_isSome_of {ty : Ty} (each : ∀ heap,(initElement ty heap).isSome = ty.makeable)
    {count : Nat} (small : count < 2 ^ 31) (heap : Heap) :
    (initElements ty count heap).isSome = (ty.inList && (count == 0 || ty.makeable)) := by
  rw [initElements_eq]
  unfold pushed
  split_ifs with isIn
  · rw [repeated_isSome each,isIn,Bool.true_and]
  · rw [Bool.eq_false_iff.mpr isIn,Bool.false_and,Option.isSome_none]

mutual

theorem initElement_isSome (ty : Ty) (heap : Heap) :
    (initElement ty heap).isSome = ty.makeable := by
  cases ty with
  | structTy fields =>
    rw [Ty.makeable,← initFields_isSome fields heap]
    cases found : initFields fields heap <;> simp [initElement,newStruct,found]
  | tensorTy element lengthOfDimensions =>
    cases static : staticLength lengthOfDimensions with
    | none => simp [initElement,Ty.makeable,static]
    | some lengths =>
      cases asked : flattenedLength 0 1 lengths with
      | none => simp [initElement,newTensor,Ty.makeable,static,asked]
      | some length =>
        by_cases bad : lengths = [] ∨ length < 0
        · have bad' : (!lengths.isEmpty && element.inList && decide (0 ≤ length)) = false := by
            rcases bad with rfl | negative
            · rfl
            · simp [Int.not_le.mpr negative]
          simp [initElement,newTensor,Ty.makeable,static,asked,bad,bad']
        · obtain ⟨some,nonnegative⟩ : lengths ≠ [] ∧ 0 ≤ length := by
            simpa using bad
          have below := flattenedLength_lt asked (by decide)
          have small : length.toNat < 2 ^ 31 := by omega
          have rest := initElements_isSome_of (fun heap => initElement_isSome element heap) small heap
          have zero : (length.toNat == 0) = (length == 0) := by
            rw [Bool.eq_iff_iff,beq_iff_eq,beq_iff_eq]
            omega
          rw [Ty.makeable]
          simp only [static,asked]
          rw [← zero,decide_eq_true nonnegative,Bool.and_true,Bool.and_assoc,← rest]
          cases found : initElements element length.toNat heap <;>
            simp [initElement,newTensor,static,asked,some,Int.not_lt.mpr nonnegative,found]
  | sequenceTy element =>
    have rest := initElements_isSome_of (fun heap => initElement_isSome element heap)
      (by decide : 0 < 2 ^ 31) heap
    rw [Ty.makeable,← Bool.and_true element.inList]
    refine Eq.trans ?_ rest
    cases found : initElements element 0 heap <;> simp [initElement,newSequence,found]
  | _ => rfl

theorem initFields_isSome (fields : List Ty) (heap : Heap) :
    (initFields fields heap).isSome = Ty.makeableFields fields := by
  cases fields with
  | nil => rfl
  | cons field fields =>
    have head := initElement_isSome field heap
    rw [Ty.makeableFields,← head]
    cases found : initElement field heap with
    | none => simp [initFields,found]
    | some result =>
      rw [← initFields_isSome fields result.1]
      cases rest : initFields fields result.1 <;> simp [initFields,found,rest]

end

section
variable {ty : Ty}

theorem signExtend_passed {key : Int} (above : -2 ^ 31 ≤ key) (below : key < 2 ^ 31) :
    signExtend (key % 2 ^ 64).toNat = (key % 2 ^ 64).toNat := by
  change (if (key % 2 ^ 64).toNat % 2 ^ 32 < 2 ^ 31 then (key % 2 ^ 64).toNat % 2 ^ 32
    else (key % 2 ^ 64).toNat % 2 ^ 32 + (2 ^ 64 - 2 ^ 32) : Nat) = (key % 2 ^ 64).toNat
  split_ifs <;> omega

theorem readKey_passed (fits : ty.Fits) (key : Key ty) : readKey ty key.passed = some key.stored := by
  obtain ⟨key,holds⟩ := key
  change readKey ty (key % 2 ^ 64).toNat =
    some (if ty.isInt32 then (key % 2 ^ 64).toNat % 2 ^ 32 else (key % 2 ^ 64).toNat)
  cases ty with
  | integerTy bitwidth isSigned =>
    simp only [Ty.Fits] at fits
    have low : bitwidth < 32 → (2 : Int) ^ bitwidth ≤ 2 ^ 31 := fun below =>
      pow_le_pow_right₀ (by decide) (by omega)
    have half : bitwidth < 32 → (2 : Int) ^ (bitwidth - 1) ≤ 2 ^ 31 := fun below =>
      pow_le_pow_right₀ (by decide) (by omega)
    simp only [readKey,Ty.isInt32,decide_eq_true_eq]
    split_ifs with small notSmall isWord
    · omega
    · cases isSigned with
      | true =>
        simp only [Ty.Holds] at holds
        rw [signExtend_passed (by omega) (by omega)]
      | false =>
        simp only [Ty.Holds] at holds
        rw [signExtend_passed (by omega) (by omega)]
    · rfl
    · omega
    · omega
    · rfl
  | pointerTy | referenceTy => rfl
  | _ => exact absurd holds id

/-- The values of an integer type are as many as its words. -/
theorem Ty.Holds.range {bitwidth : Nat} {isSigned : Bool} :
    ∃ low : Int,∀ key,(Ty.integerTy bitwidth isSigned).Holds key → low ≤ key ∧ key < low + 2 ^ bitwidth := by
  cases isSigned with
  | true =>
    refine ⟨-2 ^ (bitwidth - 1),fun key holds => ?_⟩
    obtain ⟨positive,above,below⟩ := holds
    have double : (2 : Int) ^ bitwidth = 2 ^ (bitwidth - 1) * 2 := by
      rw [← pow_succ,Nat.sub_add_cancel positive]
    omega
  | false => exact ⟨0,fun key holds => ⟨holds.1,by rw [zero_add]; exact holds.2⟩⟩

/-- Keys are the same if they are as values of their type. -/
theorem truncate_passed_injective (fits : ty.Fits) :
    Function.Injective fun key : Key ty => ty.truncate key.passed := by
  intro k k' same
  have holds := k.property
  have holds' := k'.property
  apply Subtype.ext
  change ty.truncate (k.val % 2 ^ 64).toNat = ty.truncate (k'.val % 2 ^ 64).toNat at same
  cases ty with
  | integerTy bitwidth isSigned =>
    have word (key : Int) : (((key % 2 ^ 64).toNat % 2 ^ bitwidth : Nat) : Int) = key % 2 ^ bitwidth := by
      rw [Int.natCast_mod,Int.toNat_of_nonneg (Int.emod_nonneg _ (by decide)),Nat.cast_pow,Nat.cast_ofNat]
      exact Int.emod_emod_of_dvd key (pow_dvd_pow 2 fits)
    have mods : k.val % 2 ^ bitwidth = k'.val % 2 ^ bitwidth := by
      rw [← word,← word]
      exact congrArg Nat.cast same
    obtain ⟨low,range⟩ := @Ty.Holds.range bitwidth isSigned
    have inside := range k.val holds
    have inside' := range k'.val holds'
    refine sub_eq_zero.mp (Int.eq_zero_of_abs_lt_dvd
      (Int.dvd_of_emod_eq_zero (Int.emod_eq_emod_iff_emod_sub_eq_zero.mp mods)) ?_)
    rw [abs_lt]
    omega
  | pointerTy | referenceTy =>
    have bounds : 0 ≤ k.val ∧ k.val < 2 ^ 64 := holds
    have bounds' : 0 ≤ k'.val ∧ k'.val < 2 ^ 64 := holds'
    have words : (k.val % 2 ^ 64).toNat = (k'.val % 2 ^ 64).toNat := same
    omega
  | _ => exact absurd holds id

theorem truncate_stored (key : Key ty) : ty.truncate key.stored = ty.truncate key.passed := by
  unfold Key.stored
  split_ifs with isInt32
  · cases ty with
    | integerTy bitwidth isSigned =>
      obtain rfl : bitwidth = 32 := of_decide_eq_true isInt32
      exact Nat.mod_mod _ _
    | _ => exact absurd isInt32 (by simp [Ty.isInt32])
  · rfl

theorem truncate_stored_injective (fits : ty.Fits) :
    Function.Injective fun key : Key ty => ty.truncate key.stored := by
  simp only [truncate_stored]
  exact truncate_passed_injective fits

theorem stored_injective (fits : ty.Fits) : Function.Injective (@Key.stored ty) :=
  fun _ _ same => truncate_stored_injective fits (congrArg ty.truncate same)

end

namespace Heap

def mutAssocRemove (heap : Heap) (collection : Nat) (argument : Word) : Option Heap :=
  match heap.get collection with
  | some (.owned (.assocArray key value entries)) => do
    return heap.write collection (.assocArray key value (← removeElement key entries argument))
  | _ => none

def mutAssocInsert (heap : Heap) (collection : Nat) (argument : Word) : Option Heap :=
  (heap.getElement collection [argument]).map Prod.fst

def assocHas (heap : Heap) (collection : Nat) (argument : Word) : Option Bool :=
  heap.hasElement collection [argument]

end Heap

namespace AssocArray

inductive Operation (key : Ty)
  | write (k : Key key) (value : Word)
  | insert (k : Key key)
  | remove (k : Key key)
  | mutInsert (k : Key key)
  | mutRemove (k : Key key)
  | read (k : Key key)
  | has (k : Key key)
  | keys
  | size

inductive Observation
  | nothing
  | word (value : Word)
  | flag (value : Bool)
  | words (values : List Word)
  | number (value : Nat)

variable {key : Ty}

namespace Operation

/-- What an operation does to the array, which array the run goes on with, and what it shows. -/
def run (heap : Heap) (array : Nat) : Operation key → Option (Heap × Nat × Observation)
  | write k value => (heap.assocWrite value array [k.passed]).map fun result =>
    (result.1,result.2,.nothing)
  | insert k => (heap.assocInsert array k.passed).map fun result => (result.1,result.2,.nothing)
  | remove k => (heap.assocRemove array k.passed).map fun result => (result.1,result.2,.nothing)
  | mutInsert k => (heap.mutAssocInsert array k.passed).map fun heap => (heap,array,.nothing)
  | mutRemove k => (heap.mutAssocRemove array k.passed).map fun heap => (heap,array,.nothing)
  | read k => (heap.assocRead array [k.passed]).map fun result => (result.1,array,.word result.2)
  | has k => (heap.assocHas array k.passed).map fun found => (heap,array,.flag found)
  | keys => do
    let (heap,sequence) ← heap.assocKeys array
    return (heap,array,.words (← heap.vector sequence))
  | size => (heap.size array).map fun size => (heap,array,.number size)

/-- The same operation on a finite map. A key that is inserted gets some first value, zero if it
is a scalar. -/
def Meaning (value : Ty) (map : Finmap fun _ : Key key => Word) :
    Operation key → Observation → (Finmap fun _ : Key key => Word) → Prop
  | write k value,shown,next => shown = .nothing ∧ next = map.insert k value
  | insert k,shown,next | mutInsert k,shown,next => shown = .nothing ∧
    if k ∈ map then next = map
    else ∃ initial, (value.isScalar = true → initial = 0) ∧ next = map.insert k initial
  | remove k,shown,next | mutRemove k,shown,next => shown = .nothing ∧ next = map.erase k
  | read k,shown,next => next = map ∧ ∃ value, map.lookup k = some value ∧ shown = .word value
  | has k,shown,next => next = map ∧ shown = .flag (decide (k ∈ map))
  | keys,shown,next => next = map ∧ ∃ words, shown = .words words ∧ (words.map key.truncate).Nodup ∧
    ∀ word, word ∈ words.map key.truncate ↔ ∃ k ∈ map, key.truncate k.passed = word
  | size,shown,next => next = map ∧ shown = .number map.keys.card

def after (present : Finset (Key key)) : Operation key → Finset (Key key)
  | write k _ | insert k | mutInsert k => Insert.insert k present
  | remove k | mutRemove k => present.erase k
  | read _ | has _ | keys | size => present

def Defined (present : Finset (Key key)) : Operation key → Prop
  | read k => k ∈ present
  | _ => True

def observes : Operation key → Bool
  | read _ | has _ | keys | size => true
  | _ => false

/-- Removes are from arrays with integer keys, or of keys that are not there; inserts of new keys
are of values that can be made. -/
def Kept (value : Ty) (present : Finset (Key key)) : Operation key → Prop
  | remove k | mutRemove k => key.isInteger = true ∨ k ∉ present
  | insert k | mutInsert k => value.makeable = true ∨ k ∈ present
  | _ => True

end Operation

def Along (condition : Finset (Key key) → Operation key → Prop) (present : Finset (Key key)) :
    List (Operation key) → Prop
  | [] => True
  | operation :: operations =>
    condition present operation ∧ Along condition (operation.after present) operations

def Shows (value : Ty) (heap : Heap) (array : Nat) (map : Finmap fun _ : Key key => Word) : Prop :=
  ∀ operation : Operation key, operation.observes = true → operation.Defined map.keys →
    ∃ heap' shown, operation.run heap array = some (heap',array,shown) ∧
      operation.Meaning value map shown map

/-- The array shows the map before and after every operation, and so do the operations. -/
def Refines (value : Ty) (heap : Heap) (array : Nat) (map : Finmap fun _ : Key key => Word) :
    List (Operation key) → Prop
  | [] => Shows value heap array map
  | operation :: operations => Shows value heap array map ∧
    ∃ heap' array' shown map', operation.run heap array = some (heap',array',shown) ∧
      operation.Meaning value map shown map' ∧ Refines value heap' array' map' operations

theorem lookup_assign (entries : List (Word × Word)) (k k' value : Word) :
    (assign entries k value).lookup k' = if k' = k then some value else entries.lookup k' := by
  induction entries with
  | nil =>
    by_cases same : k' = k
    · simp [assign,same]
    · simp [assign,same,List.lookup_cons,beq_eq_false_iff_ne.mpr same]
  | cons entry entries ih =>
    obtain ⟨first,old⟩ := entry
    unfold assign
    by_cases same : k = first
    · subst same
      by_cases same : k' = k
      · simp [same]
      · simp [same,List.lookup_cons,beq_eq_false_iff_ne.mpr same]
    · rw [if_neg same,List.lookup_cons,List.lookup_cons,ih]
      by_cases head : k' = first
      · subst head
        simp [Ne.symm same]
      · simp [beq_eq_false_iff_ne.mpr head]

theorem mem_keys_assign {entries : List (Word × Word)} {k k' value : Word} :
    k' ∈ (assign entries k value).map Prod.fst ↔ k' = k ∨ k' ∈ entries.map Prod.fst := by
  induction entries with
  | nil => simp [assign]
  | cons entry entries ih =>
    unfold assign
    split_ifs with same
    · simp [same]
    · simp only [List.map_cons,List.mem_cons,ih]
      tauto

theorem nodup_keys_assign {entries : List (Word × Word)} (k value : Word)
    (nodup : (entries.map Prod.fst).Nodup) : ((assign entries k value).map Prod.fst).Nodup := by
  induction entries with
  | nil => simp [assign]
  | cons entry entries ih =>
    obtain ⟨fresh,rest⟩ := List.nodup_cons.mp nodup
    unfold assign
    split_ifs with same
    · subst same
      exact nodup
    · apply List.nodup_cons.mpr
      refine ⟨fun member => ?_,ih rest⟩
      rcases mem_keys_assign.mp member with same' | old
      · exact same same'.symm
      · exact fresh old

theorem lookup_eraseEntry (entries : List (Word × Word)) (k k' : Word) :
    (eraseEntry entries k).lookup k' = if k' = k then none else entries.lookup k' := by
  induction entries with
  | nil => simp [eraseEntry]
  | cons entry entries ih =>
    obtain ⟨first,value⟩ := entry
    unfold eraseEntry at ih ⊢
    rw [List.filter_cons,List.lookup_cons]
    by_cases same : first = k
    · subst same
      rw [if_neg (by simp),ih]
      by_cases head : k' = first
      · rw [if_pos head,if_pos head]
      · rw [if_neg head,if_neg head,beq_eq_false_iff_ne.mpr head]
    · rw [if_pos (by simpa using same),List.lookup_cons,ih]
      by_cases head : k' = first
      · subst head
        simp [same]
      · simp [beq_eq_false_iff_ne.mpr head]

theorem nodup_keys_eraseEntry {entries : List (Word × Word)} (k : Word)
    (nodup : (entries.map Prod.fst).Nodup) : ((eraseEntry entries k).map Prod.fst).Nodup :=
  nodup.sublist (List.filter_sublist.map Prod.fst)

theorem lookup_isSome {entries : List (Word × Word)} {k : Word} :
    (entries.lookup k).isSome = true ↔ k ∈ entries.map Prod.fst := by
  induction entries with
  | nil => simp
  | cons entry entries ih =>
    rw [List.lookup_cons]
    by_cases head : k = entry.1
    · simp [head]
    · simp [beq_eq_false_iff_ne.mpr head,ih,head]

structure Lists (entries : List (Word × Word)) (map : Finmap fun _ : Key key => Word) : Prop where
  nodup : (entries.map Prod.fst).Nodup
  lookup : ∀ k : Key key, entries.lookup k.stored = map.lookup k
  stored : ∀ word ∈ entries.map Prod.fst, ∃ k : Key key, k.stored = word

section
variable {entries : List (Word × Word)} {map : Finmap fun _ : Key key => Word}

theorem Lists.empty : Lists [] (∅ : Finmap fun _ : Key key => Word) where
  nodup := List.nodup_nil
  lookup k := by rw [Finmap.lookup_empty,List.lookup_nil]
  stored := by simp

theorem Lists.assign (fits : key.Fits) (lists : Lists entries map) (k : Key key) (value : Word) :
    Lists (assign entries k.stored value) (map.insert k value) where
  nodup := nodup_keys_assign _ _ lists.nodup
  lookup k' := by
    rw [lookup_assign]
    by_cases same : k' = k
    · subst same
      rw [if_pos rfl,Finmap.lookup_insert]
    · rw [if_neg (fun words => same (stored_injective fits words)),
        Finmap.lookup_insert_of_ne _ same,lists.lookup]
  stored word member := by
    rcases mem_keys_assign.mp member with rfl | member
    · exact ⟨k,rfl⟩
    · exact lists.stored word member

theorem Lists.erase (fits : key.Fits) (lists : Lists entries map) (k : Key key) :
    Lists (eraseEntry entries k.stored) (map.erase k) where
  nodup := nodup_keys_eraseEntry _ lists.nodup
  lookup k' := by
    rw [lookup_eraseEntry]
    by_cases same : k' = k
    · subst same
      rw [if_pos rfl,Finmap.lookup_erase]
    · rw [if_neg (fun words => same (stored_injective fits words)),Finmap.lookup_erase_ne same,
        lists.lookup]
  stored word member :=
    lists.stored word ((List.filter_sublist.map Prod.fst).subset member)

theorem Lists.mem_iff (lists : Lists entries map) (k : Key key) :
    k.stored ∈ entries.map Prod.fst ↔ k ∈ map := by
  rw [← lookup_isSome,lists.lookup,Finmap.lookup_isSome]

/-- A key that is not there can be erased, or left. -/
theorem Lists.erase_absent (lists : Lists entries map) {k : Key key} (absent : k ∉ map) :
    Lists entries (map.erase k) := by
  have same : map.erase k = map := by
    apply Finmap.ext_lookup
    intro k'
    by_cases same : k' = k
    · subst same
      rw [Finmap.lookup_erase,Finmap.lookup_eq_none.mpr absent]
    · rw [Finmap.lookup_erase_ne same]
  rw [same]
  exact lists

theorem Lists.words (lists : Lists entries map) (word : Word) :
    word ∈ entries.map Prod.fst ↔ ∃ k ∈ map, k.stored = word := by
  constructor
  · intro member
    obtain ⟨k,rfl⟩ := lists.stored word member
    exact ⟨k,(lists.mem_iff k).mp member,rfl⟩
  · rintro ⟨k,member,rfl⟩
    exact (lists.mem_iff k).mpr member

/-- The words that are stored are the keys, as values of their type. -/
theorem Lists.truncated (fits : key.Fits) (lists : Lists entries map) :
    ((entries.map Prod.fst).map key.truncate).Nodup ∧
      ∀ word, word ∈ (entries.map Prod.fst).map key.truncate ↔ ∃ k ∈ map, key.truncate k.passed = word := by
  constructor
  · refine List.Nodup.map_on (fun word member word' member' same => ?_) lists.nodup
    obtain ⟨k,rfl⟩ := lists.stored word member
    obtain ⟨k',rfl⟩ := lists.stored word' member'
    rw [truncate_stored_injective fits same]
  · intro word
    rw [List.mem_map]
    constructor
    · rintro ⟨stored,member,rfl⟩
      obtain ⟨k,isKey,rfl⟩ := (lists.words stored).mp member
      exact ⟨k,isKey,(truncate_stored k).symm⟩
    · rintro ⟨k,isKey,rfl⟩
      exact ⟨k.stored,(lists.words _).mpr ⟨k,isKey,rfl⟩,truncate_stored k⟩

theorem Lists.length_eq (fits : key.Fits) (lists : Lists entries map) :
    entries.length = map.keys.card := by
  have same : (entries.map Prod.fst).toFinset = map.keys.image Key.stored := by
    ext word
    rw [List.mem_toFinset,lists.words,Finset.mem_image]
    simp only [Finmap.mem_keys]
  calc entries.length
    _ = (entries.map Prod.fst).length := (List.length_map ..).symm
    _ = (entries.map Prod.fst).toFinset.card := (List.toFinset_card_of_nodup lists.nodup).symm
    _ = map.keys.card := by rw [same,Finset.card_image_of_injective _ (stored_injective fits)]

end

end AssocArray

end Runtime
end Memoir
