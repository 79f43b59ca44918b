import Memoir.HashtableRefines

/-! A hash table that grows: whatever the collisions, its entries are found from their homes again and
are the pairs that it had. -/
namespace Memoir
namespace Hashtable
open LinearProbing

variable {κ ν ε : Type}

def Holds (layout : Layout κ ν ε) (table : Table ε) (key : κ) (value : ν) : Prop :=
  ∃ index,stored layout table.entries index = some (key,value)

/-- No key has two entries, no entry between the home of a key and its own is empty, and at most half
of the entries are occupied. -/
structure ProbeChains (layout : Layout κ ν ε) (hash : κ → Nat) (table : Table ε) : Prop where
  distinct : ∀ key index index',occupant layout table.entries index = some key →
    occupant layout table.entries index' = some key → index = index'
  unbroken : ∀ key d,d < table.capacity →
    occupant layout table.entries (position table.capacity (home hash table.capacity key) d) = some key →
    ∀ e < d,occupant layout table.entries
      (position table.capacity (home hash table.capacity key) e) ≠ none
  half : 2 * load layout table.entries ≤ table.capacity
  some : 0 < table.capacity

section
variable {layout : Layout κ ν ε} {hash : κ → Nat} {table : Table ε}

theorem occupant_lt {entries : List ε} {index : Nat} {key : κ}
    (is : occupant layout entries index = some key) : index < entries.length := by
  by_contra above
  simp [occupant,List.getElem?_eq_none (Nat.le_of_not_lt above)] at is

theorem ProbeChains.chained (chains : ProbeChains layout hash table) :
    Chained table.capacity (home hash table.capacity) (occupant layout table.entries) := by
  intro key d bound is e before
  obtain ⟨other,isOther⟩ := Option.ne_none_iff_exists'.mp (chains.unbroken key d bound is e before)
  refine ⟨other,isOther,?_⟩
  rintro rfl
  have same := position_injective (Nat.lt_trans before bound) bound
    (chains.distinct other _ _ isOther is)
  exact absurd before (by omega)

theorem distinct_keys (distinct : ∀ key index index',occupant layout table.entries index = some key →
    occupant layout table.entries index' = some key → index = index') :
    table.entries.Pairwise fun entry entry' => layout.occupied entry = true →
      layout.occupied entry' = true → layout.key entry ≠ layout.key entry' := by
  apply List.pairwise_iff_getElem.mpr
  intro i j belowI belowJ before occupied occupied' same
  have first := (occupant_eq_some (List.getElem?_eq_getElem belowI)).mpr ⟨occupied,same⟩
  have second := (occupant_eq_some (List.getElem?_eq_getElem belowJ)).mpr ⟨occupied',rfl⟩
  exact absurd (distinct _ i j first second) (by omega)

theorem holds_iff_entry {key : κ} {value : ν} : Holds layout table key value ↔
    ∃ entry ∈ table.entries,layout.occupied entry = true ∧ layout.key entry = key ∧
      layout.value entry = value := by
  constructor
  · rintro ⟨index,is⟩
    have below := stored_lt is
    simp only [stored,List.getElem?_eq_getElem below,Option.bind_some] at is
    split_ifs at is with occupied
    obtain ⟨isKey,isValue⟩ := Prod.mk.inj (Option.some.inj is)
    exact ⟨_,List.getElem_mem below,occupied,isKey,isValue⟩
  · rintro ⟨entry,member,occupied,rfl,rfl⟩
    obtain ⟨index,below,rfl⟩ := List.getElem_of_mem member
    exact ⟨index,by simp [stored,below,occupied]⟩

variable [DecidableEq κ] {map : Finmap fun _ : κ => ν}

/-- The map that a table with whole chains stands for. -/
theorem ProbeChains.stores (chains : ProbeChains layout hash table) :
    Stores layout hash table.entries (addAll layout (∅ : Finmap fun _ : κ => ν) table.entries) := by
  refine ⟨chains.chained,fun key value => ?_⟩
  rw [lookup_addAll (distinct_keys chains.distinct)]
  simp only [Finmap.lookup_empty,reduceCtorEq,and_false,or_false]
  exact holds_iff_entry.symm

theorem Stores.probeChains (stores : Stores layout hash table.entries map)
    (half : 2 * load layout table.entries ≤ table.capacity) (some : 0 < table.capacity) :
    ProbeChains layout hash table := by
  refine ⟨?_,?_,half,some⟩
  · intro key index index' is is'
    exact stores.chained.unique (occupant_lt is) (occupant_lt is') is is'
  · intro key d bound is e before isEmpty
    obtain ⟨other,isOther,_⟩ := stores.chained key d bound is e before
    exact absurd (isEmpty.symm.trans isOther) (by simp)

theorem Stores.holds (stores : Stores layout hash table.entries map) (key : κ) (value : ν) :
    Holds layout table key value ↔ map.lookup key = some value := (stores.lists key value).symm

variable {rounds : Nat}

theorem set_stores (stores : Stores layout hash table.entries map) {key : κ}
    (storable : layout.storable key = true) (room : load layout table.entries < table.capacity)
    (value : ν) (enough : table.capacity ≤ rounds) :
    ∃ after,set layout hash rounds table key value = some after ∧
      Stores layout hash after.entries (map.insert key value) := by
  obtain ⟨entries',isSet,_,stores'⟩ := stores.set storable (exists_empty room) value enough
  have ran : set layout hash rounds table key value =
      Option.some ⟨if decide (key ∉ map) = true then (table.length + 1) % 2 ^ 64 else table.length,
        entries'⟩ := by
    rw [set,isSet]
    rfl
  exact ⟨_,ran,stores'⟩

end

/-- A table that grows keeps its pairs and its chains, and a pair that is set then changes no other.
Entries are at least two bytes, of which fewer than `2 ^ 64` are in memory. -/
theorem expand_keeps_pairs {κ ν : Type} [DecidableEq κ] (zeroKey : κ) (zero : ν) (hash : κ → Nat)
    (table : Table (PrimitiveEntry κ ν)) (chains : ProbeChains (primitive zeroKey zero) hash table)
    (entrySize : Nat) (atLeast : 2 ≤ entrySize) (inMemory : table.capacity * entrySize < 2 ^ 64)
    (rounds : Nat) (enough : table.capacity * 2 ≤ rounds) :
    ∃ larger,expand (primitive zeroKey zero) hash rounds table = some larger ∧
      larger.capacity = table.capacity * 2 ∧ larger.length = table.length ∧
      ProbeChains (primitive zeroKey zero) hash larger ∧
      (∀ key value,Holds (primitive zeroKey zero) larger key value ↔
        Holds (primitive zeroKey zero) table key value) ∧
      ∀ key value,∃ after,set (primitive zeroKey zero) hash rounds larger key value = some after ∧
        ∀ key' value',Holds (primitive zeroKey zero) after key' value' ↔
          if key' = key then value' = value else Holds (primitive zeroKey zero) table key' value' := by
  have half := chains.half
  have some := chains.some
  have doubled : table.capacity * 2 < 2 ^ 64 :=
    Nat.lt_of_le_of_lt (Nat.mul_le_mul_left table.capacity atLeast) inMemory
  obtain ⟨larger,expanded,capacity,length,loaded,stores⟩ :=
    expand_stores chains.stores half some doubled enough
  refine ⟨larger,expanded,capacity,length,stores.probeChains (by omega) (by omega),?_,?_⟩
  · intro key value
    rw [stores.holds,chains.stores.holds]
  · intro key value
    obtain ⟨after,isSet,stores'⟩ := set_stores stores rfl (by omega) value (capacity ▸ enough)
    refine ⟨after,isSet,fun key' value' => ?_⟩
    rw [stores'.holds]
    split_ifs with same
    · rw [same,Finmap.lookup_insert,Option.some.injEq,eq_comm]
    · rw [Finmap.lookup_insert_of_ne _ same,chains.stores.holds]

/-- Two keys with one home, of which the second is in the first slot. -/
def wrapped : Table (PrimitiveEntry Nat Nat) :=
  ⟨2,[⟨true,7,70⟩,⟨false,0,0⟩,⟨false,0,0⟩,⟨true,3,30⟩]⟩

theorem wrapped_probeChains : ProbeChains (primitive 0 0) id wrapped := by
  have start := represents_allocate (primitive 0 0) id (by decide : 0 < 4) (by decide)
  obtain ⟨first,ran,represents⟩ := write_represents start (30 : Nat)
    (rfl : (primitive 0 0).storable (3 : Nat) = true) (Or.inl (by decide)) (Nat.le_refl _)
  obtain rfl : (⟨1,[⟨false,0,0⟩,⟨false,0,0⟩,⟨false,0,0⟩,⟨true,3,30⟩]⟩ : Table _) = first :=
    Option.some.inj ran
  obtain ⟨second,ran,represents⟩ := write_represents represents (70 : Nat)
    (rfl : (primitive 0 0).storable (7 : Nat) = true) (Or.inl (by decide)) (Nat.le_refl _)
  obtain rfl : wrapped = second := Option.some.inj ran
  exact represents.stores.probeChains (by decide) (by decide)

/-- A larger table has both keys, and one that is set then. -/
theorem wrapped_expand_keeps :
    ∃ larger,expand (primitive 0 0) id 8 wrapped = some larger ∧ larger.capacity = 8 ∧
      Holds (primitive 0 0) larger 7 70 ∧ ∃ after,set (primitive 0 0) id 8 larger 11 1 = some after ∧
        Holds (primitive 0 0) after 7 70 := by
  obtain ⟨larger,expanded,capacity,_,_,holds,sets⟩ := expand_keeps_pairs 0 0 id wrapped
    wrapped_probeChains 2 (Nat.le_refl 2) (by decide) 8 (by decide)
  have held : Holds (primitive 0 0) wrapped 7 70 := ⟨0,rfl⟩
  obtain ⟨after,isSet,holds'⟩ := sets 11 1
  exact ⟨larger,expanded,capacity,(holds 7 70).mpr held,after,isSet,(holds' 7 70).mpr held⟩

end Hashtable
end Memoir
