import Memoir.NestingProbes

/-! The runs of the nesting hash tables. A run that never leaves its entries and never goes on forever is
one that expands only where the homes of the entries leave room behind them. -/
namespace Memoir
namespace NestingHashtable
open Hashtable (PrimitiveEntry Table primitive find find_found)
open LinearProbing Parking

variable {κ ν : Type} {zeroKey : κ} {zero : ν} {hash : κ → BitVec 32} {memory : Bool} {rounds : Nat}

/-- The tables that the operations keep. Only a table of one entry can be full. -/
structure Sized (table : Table (PrimitiveEntry κ ν)) : Prop where
  loaded : (existing table.entries).length = table.length
  positive : 0 < table.capacity
  bounded : table.capacity < 2 ^ 64
  room : table.length < table.capacity ∨ table.capacity = 1

def Holds (entries : List (PrimitiveEntry κ ν)) (key : κ) : Prop :=
  ∃ entry ∈ entries,entry.exists_ = true ∧ entry.key = key

instance [DecidableEq κ] (entries : List (PrimitiveEntry κ ν)) (key : κ) : Decidable (Holds entries key) :=
  inferInstanceAs (Decidable (∃ entry ∈ entries,entry.exists_ = true ∧ entry.key = key))

def Probes (capacity length : Nat) (entries : List (PrimitiveEntry κ ν)) (key : κ) : Prop :=
  capacity % 2 ^ 32 ≠ 0 ∧ (length < capacity ∨ Holds entries key)

instance [DecidableEq κ] (capacity length : Nat) (entries : List (PrimitiveEntry κ ν)) (key : κ) :
    Decidable (Probes capacity length entries key) :=
  inferInstanceAs (Decidable (_ ∧ (_ ∨ _)))

def newCapacity (table : Table (PrimitiveEntry κ ν)) : Nat := table.capacity + table.capacity / 2

def Grows (hash : κ → BitVec 32) (memory : Bool) (table : Table (PrimitiveEntry κ ν)) (key : κ) : Prop :=
  2 ^ 64 ≤ newCapacity table ∨ memory = false ∨
    Room (newCapacity table) (homes hash (newCapacity table) table.entries) ∧
      Probes (newCapacity table) table.length table.entries key

instance [DecidableEq κ] (table : Table (PrimitiveEntry κ ν)) (key : κ) :
    Decidable (Grows hash memory table key) :=
  inferInstanceAs (Decidable (_ ∨ _ ∨ _ ∧ _))

section
variable {table : Table (PrimitiveEntry κ ν)} {entries : List (PrimitiveEntry κ ν)} {index : Nat} {key : κ}

theorem existing_length_le (entries : List (PrimitiveEntry κ ν)) :
    (existing entries).length ≤ entries.length :=
  List.length_filter_le _ _

/-- The keys are in the entries that exist. -/
theorem holds_iff : Holds entries key ↔ ∃ entry ∈ existing entries,entry.key = key := by
  unfold Holds existing
  simp only [List.mem_filter,and_assoc]

theorem Sized.length_le (sized : Sized table) : table.length ≤ table.capacity :=
  sized.loaded ▸ existing_length_le table.entries

theorem Sized.length_succ (sized : Sized table) : (table.length + 1) % 2 ^ 64 = table.length + 1 := by
  have le := sized.length_le
  have room := sized.room
  have bounded := sized.bounded
  exact Nat.mod_eq_of_lt (by omega)

/-- An operation that keeps the capacity. -/
theorem Sized.keeps (sized : Sized table) {table' : Table (PrimitiveEntry κ ν)}
    (same : table'.capacity = table.capacity) (loaded : (existing table'.entries).length = table'.length)
    (room : table'.length < table.capacity ∨ table.capacity = 1) : Sized table' :=
  ⟨loaded,same.symm ▸ sized.positive,same.symm ▸ sized.bounded,same.symm ▸ room⟩

/-- The loops meet an entry to stop at, unless all the entries hold other keys. -/
theorem Sized.stop_iff (sized : Sized table) (key : κ) :
    (∃ entry ∈ table.entries,Stop key entry) ↔ table.length < table.capacity ∨ Holds table.entries key := by
  have full : (∃ entry ∈ table.entries,entry.exists_ = false) ↔ table.length < table.capacity := by
    have le := existing_length_le table.entries
    have all := List.length_filter_eq_length_iff (l := table.entries) (p := fun entry => entry.exists_)
    change (existing table.entries).length = _ ↔ _ at all
    rw [sized.loaded] at all le
    unfold Table.capacity
    rw [Nat.lt_iff_le_and_ne,and_iff_right le,Ne,all]
    simp
  rw [← full]
  constructor
  · rintro ⟨entry,member,empty | same⟩
    · exact .inl ⟨entry,member,empty⟩
    · cases exists_ : entry.exists_ with
      | false => exact .inl ⟨entry,member,exists_⟩
      | true => exact .inr ⟨entry,member,exists_,same⟩
  · rintro (⟨entry,member,empty⟩ | ⟨entry,member,exists_,same⟩)
    · exact ⟨entry,member,.inl empty⟩
    · exact ⟨entry,member,.inr same⟩

/-- A loop around the entries that ends at an entry to stop at, and at no other. -/
theorem Sized.loop_isSome (sized : Sized table) {α : Type} {loop : Option α} (home : Nat)
    (ends : ∀ d entry,table.entries[position table.entries.length home d]? = some entry → Stop key entry →
      d < table.capacity → loop.isSome = true)
    (goes : (∀ entry ∈ table.entries,¬Stop key entry) → loop = none) :
    loop.isSome = true ↔ table.length < table.capacity ∨ Holds table.entries key := by
  rw [← sized.stop_iff key]
  constructor
  · intro ended
    by_contra none_
    rw [goes fun entry member stop => none_ ⟨entry,member,stop⟩] at ended
    exact Bool.false_ne_true ended
  · rintro ⟨entry,member,stop⟩
    obtain ⟨d,bound,there⟩ := exists_distance member home
    exact ends d entry there stop bound

/-- A full table has one entry, which the search for every key begins at. -/
theorem Sized.home_zero (sized : Sized table) (full : ¬table.length < table.capacity) (hash : κ → BitVec 32)
    (key : κ) : (hash key).toNat % (table.capacity % 2 ^ 32) = 0 := by
  rw [sized.room.resolve_left full]
  exact Nat.mod_one _

theorem home_none (whole : ¬table.capacity % 2 ^ 32 ≠ 0) : home hash table.capacity key = none :=
  if_pos (not_not.mp whole)

theorem existing_replicate (capacity : Nat) (key : κ) (value : ν) :
    existing (List.replicate capacity ⟨false,key,value⟩) = [] :=
  List.filter_eq_nil_iff.mpr fun _ member => by simp [List.eq_of_mem_replicate member]

theorem newCapacity_eq (fits : newCapacity table < 2 ^ 64) :
    (table.capacity + table.capacity >>> 1) % 2 ^ 64 = newCapacity table := by
  rw [Nat.shiftRight_eq_div_pow,pow_one]
  exact Nat.mod_eq_of_lt fits

theorem Sized.expand_exit (sized : Sized table) (none_ : 2 ^ 64 ≤ newCapacity table ∨ memory = false) :
    expand zeroKey zero hash memory rounds table = some .exit := by
  unfold expand
  have bounded := sized.bounded
  rcases Nat.lt_or_ge (newCapacity table) (2 ^ 64) with fits | overflows
  · rw [newCapacity_eq fits]
    have grows : ¬newCapacity table < table.capacity := by unfold newCapacity; omega
    simp only [grows,if_false,none_.resolve_left (by omega),if_true]
  · have wraps : (table.capacity + table.capacity >>> 1) % 2 ^ 64 < table.capacity := by
      rw [Nat.shiftRight_eq_div_pow,pow_one]
      unfold newCapacity at overflows
      omega
    simp only [wraps,if_true]

theorem expand_eq (zeroKey : κ) (zero : ν) (hash : κ → BitVec 32) (rounds : Nat)
    (fits : newCapacity table < 2 ^ 64) (given : memory = true) :
    expand zeroKey zero hash memory rounds table =
      (move hash rounds (List.replicate (newCapacity table) ⟨false,zeroKey,zero⟩) table.entries).map
        fun newEntries => .returns ⟨table.length,newEntries⟩ := by
  unfold expand
  have grows : ¬newCapacity table < table.capacity := by unfold newCapacity; omega
  rw [newCapacity_eq fits]
  simp only [grows,if_false,given,Bool.true_eq_false]

theorem move_fresh (zeroKey : κ) (zero : ν) {capacity : Nat} (divides : capacity % 2 ^ 32 ≠ 0)
    (enough : capacity ≤ rounds) :
    (move hash rounds (List.replicate capacity ⟨false,zeroKey,zero⟩) entries).isSome = true ↔
      Room capacity (homes hash capacity entries) := by
  have fresh : Parked (List.replicate capacity (⟨false,zeroKey,zero⟩ : PrimitiveEntry κ ν)).length
      (taken (List.replicate capacity ⟨false,zeroKey,zero⟩)) [] := by
    rw [taken_replicate capacity rfl]
    exact parked_none _
  rw [move_isSome (by rwa [List.length_replicate]) (by rwa [List.length_replicate]) fresh,
    List.length_replicate,List.nil_append]

/-- What `expand` returns has all the entries. -/
theorem Sized.expand_returns (sized : Sized table) {larger : Table (PrimitiveEntry κ ν)}
    (ran : expand zeroKey zero hash memory rounds table = some (.returns larger)) :
    newCapacity table < 2 ^ 64 ∧ larger.length = table.length ∧ larger.capacity = newCapacity table ∧
      (existing larger.entries).Perm (existing table.entries) := by
  by_cases none_ : 2 ^ 64 ≤ newCapacity table ∨ memory = false
  · rw [sized.expand_exit none_] at ran
    exact nomatch ran
  · obtain ⟨fits,given⟩ := not_or.mp none_
    rw [expand_eq _ _ _ _ (by omega) (by simpa using given)] at ran
    obtain ⟨moved,isMoved,same⟩ := Option.map_eq_some_iff.mp ran
    obtain rfl := Outcome.returns.inj same
    obtain ⟨length,perm⟩ := move_existing isMoved
    rw [existing_replicate,List.nil_append] at perm
    rw [List.length_replicate] at length
    exact ⟨by omega,rfl,length,perm⟩

theorem Sized.expand_sized (sized : Sized table) {larger : Table (PrimitiveEntry κ ν)}
    (ran : expand zeroKey zero hash memory rounds table = some (.returns larger)) :
    Sized larger ∧ (larger.length + 1 < larger.capacity ∨ larger.capacity = 1) := by
  obtain ⟨fits,length,capacity,perm⟩ := sized.expand_returns ran
  have room := sized.room
  have positive := sized.positive
  have loaded := sized.loaded
  unfold newCapacity at *
  exact ⟨⟨by rw [perm.length_eq,loaded,length],by omega,by omega,by omega⟩,by omega⟩

theorem Holds.congr {entries' : List (PrimitiveEntry κ ν)}
    (same : (existing entries').Perm (existing entries)) : Holds entries' key ↔ Holds entries key := by
  simp only [holds_iff,same.mem_iff]

theorem Sized.assign_sized {found : Table (PrimitiveEntry κ ν) × Nat} (sized : Sized found.1)
    (written : Option ν) : Sized (assign written found) := by
  cases written with
  | none => exact sized
  | some value =>
    have kept : (existing (found.1.entries.modify found.2 fun entry => { entry with value })).length =
        (existing found.1.entries).length := by
      have same : (found.1.entries.modify found.2 fun entry => { entry with value }).map
          PrimitiveEntry.exists_ = found.1.entries.map PrimitiveEntry.exists_ := by
        apply List.ext_getElem?
        intro i
        rw [List.getElem?_map,List.getElem?_map,List.getElem?_modify]
        split_ifs
        · cases found.1.entries[i]? <;> rfl
        · cases found.1.entries[i]? <;> rfl
      have counted (entries : List (PrimitiveEntry κ ν)) :
          (existing entries).length = (entries.map PrimitiveEntry.exists_).countP id := by
        rw [existing,← List.countP_eq_length_filter,List.countP_map]
        rfl
      rw [counted,counted,same]
    exact sized.keeps (List.length_modify _ _ _) (kept.trans sized.loaded) sized.room

variable [DecidableEq κ]

theorem Sized.probe_isSome (sized : Sized table) (zeroKey : κ) (zero : ν) (hash : κ → BitVec 32) (key : κ)
    (enough : table.capacity ≤ rounds) :
    (probe zeroKey zero hash rounds table key).isSome = true ↔
      Probes table.capacity table.length table.entries key := by
  unfold probe Probes
  by_cases divides : table.capacity % 2 ^ 32 ≠ 0
  · have below := home_lt hash divides key
    rw [home_eq divides,and_iff_right divides,Option.bind_eq_bind,Option.bind_some]
    apply sized.loop_isSome ((hash key).toNat % (table.capacity % 2 ^ 32))
    · intro d entry there stop bound
      exact find_ends there stop below (bound.trans_le enough)
    · intro goes
      have full : ¬table.length < table.capacity := by
        intro less
        obtain ⟨entry,member,stop⟩ := (sized.stop_iff key).mpr (.inl less)
        exact goes entry member stop
      rw [sized.home_zero full]
      exact find_goes_on goes
  · rw [home_none divides]
    exact iff_of_false Bool.false_ne_true fun both => divides both.1

theorem Sized.getIn_isSome (sized : Sized table) (hash : κ → BitVec 32) (key : κ)
    (enough : table.capacity ≤ rounds) :
    (getIn hash rounds table key).isSome = true ↔
      Probes table.capacity table.length table.entries key := by
  unfold getIn Probes
  by_cases divides : table.capacity % 2 ^ 32 ≠ 0
  · have below := home_lt hash divides key
    rw [home_eq divides,and_iff_right divides,Option.bind_eq_bind,Option.bind_some]
    apply sized.loop_isSome ((hash key).toNat % (table.capacity % 2 ^ 32))
    · intro d entry there stop bound
      obtain ⟨place,other,found,isOther,_⟩ := getLoop_ends there stop below (bound.trans_le enough)
      rw [found,Option.bind_some,isOther]
      rfl
    · intro goes
      rw [getLoop_goes_on goes]
      rfl
  · rw [home_none divides]
    exact iff_of_false Bool.false_ne_true fun both => divides both.1

theorem Sized.get_isSome (sized : Sized table) (zeroKey : κ) (zero : ν) (hash : κ → BitVec 32)
    (memory : Bool) (key : κ) (enough : newCapacity table ≤ rounds) :
    (get zeroKey zero hash memory rounds table key).isSome = true ↔
      if table.capacity / 2 < table.length + 1 then Grows hash memory table key
      else Probes table.capacity table.length table.entries key := by
  unfold get
  have within : table.capacity ≤ newCapacity table := Nat.le_add_right _ _
  rw [sized.length_succ]
  split_ifs with grows
  · unfold Grows
    by_cases none_ : 2 ^ 64 ≤ newCapacity table ∨ memory = false
    · rw [sized.expand_exit none_]
      exact iff_of_true rfl (or_assoc.mp (.inl none_))
    · rw [← or_assoc,or_iff_right none_]
      obtain ⟨fits,given⟩ := not_or.mp none_
      have ran := expand_eq zeroKey zero hash rounds (not_le.mp fits) (by simpa using given)
      cases isMoved : move hash rounds (List.replicate (newCapacity table) ⟨false,zeroKey,zero⟩)
          table.entries with
      | none =>
        rw [isMoved] at ran
        rw [ran]
        apply iff_of_false Bool.false_ne_true
        rintro ⟨room,probes⟩
        rw [← move_fresh zeroKey zero probes.1 enough,isMoved] at room
        exact Bool.false_ne_true room
      | some moved =>
        rw [isMoved,Option.map_some] at ran
        obtain ⟨_,length,capacity,same⟩ := sized.expand_returns ran
        have larger := (sized.expand_sized ran).1.getIn_isSome hash key (capacity.symm ▸ enough)
        have found : (getIn hash rounds ⟨table.length,moved⟩ key).isSome = true ↔
            Probes (newCapacity table) table.length table.entries key := by
          rw [larger,capacity]
          unfold Probes
          rw [Holds.congr same]
        rw [ran]
        change ((getIn hash rounds ⟨table.length,moved⟩ key).bind (some ∘ Outcome.returns)).isSome =
          true ↔ _
        rw [← Option.map_eq_bind,Option.isSome_map,found]
        constructor
        · intro probes
          exact ⟨(move_fresh zeroKey zero probes.1 enough).mp (isMoved ▸ rfl),probes⟩
        · exact And.right
  · rw [Option.isSome_map]
    exact sized.getIn_isSome hash key (within.trans enough)

/-- The entry that `remove` clears is there. -/
theorem remove_isSome : (remove zeroKey zero hash rounds table key).isSome =
    (probe zeroKey zero hash rounds table key).isSome := by
  unfold remove
  cases probed : probe zeroKey zero hash rounds table key with
  | none => rfl
  | some found =>
    cases found with
    | none => rfl
    | some index =>
      obtain ⟨_,_,found⟩ := Option.bind_eq_some_iff.mp probed
      obtain ⟨entry,there,_⟩ := find_found found
      rw [Option.bind_eq_bind,Option.bind_some]
      simp only [there]
      rfl

theorem Sized.getIn_sized (sized : Sized table)
    (room : table.length + 1 < table.capacity ∨ table.capacity = 1)
    {found : Table (PrimitiveEntry κ ν) × Nat} (ran : getIn hash rounds table key = some found) :
    Sized found.1 := by
  obtain ⟨_,_,ran⟩ := Option.bind_eq_some_iff.mp ran
  obtain ⟨place,_,ran⟩ := Option.bind_eq_some_iff.mp ran
  obtain ⟨entry,there,ran⟩ := Option.bind_eq_some_iff.mp ran
  obtain rfl := Option.some.inj ran
  split_ifs with exists_
  · exact sized
  · have added := (existing_set { entry with exists_ := true,key } there (by simpa using exists_)
      rfl).length_eq
    rw [List.length_cons,sized.loaded] at added
    rw [sized.length_succ]
    exact sized.keeps List.length_set added room

theorem Sized.get_sized (sized : Sized table) {found : Table (PrimitiveEntry κ ν) × Nat}
    (ran : get zeroKey zero hash memory rounds table key = some (.returns found)) : Sized found.1 := by
  unfold get at ran
  split_ifs at ran with grows
  · obtain ⟨outcome,expanded,ran⟩ := Option.bind_eq_some_iff.mp ran
    cases outcome with
    | exit => exact nomatch Option.some.inj ran
    | returns larger =>
      obtain ⟨sized',room⟩ := sized.expand_sized expanded
      obtain ⟨found',isFound,same⟩ := Option.bind_eq_some_iff.mp ran
      obtain rfl := Outcome.returns.inj (Option.some.inj same)
      exact sized'.getIn_sized room isFound
  · obtain ⟨found',isFound,same⟩ := Option.map_eq_some_iff.mp ran
    obtain rfl := Outcome.returns.inj same
    rw [sized.length_succ] at grows
    exact sized.getIn_sized (by omega) isFound

theorem Sized.remove_sized (sized : Sized table) {smaller : Table (PrimitiveEntry κ ν)}
    (ran : remove zeroKey zero hash rounds table key = some smaller) : Sized smaller := by
  obtain ⟨found,probed,ran⟩ := Option.bind_eq_some_iff.mp ran
  cases found with
  | none => exact Option.some.inj ran ▸ sized
  | some index =>
    obtain ⟨entry,there,ran⟩ := Option.bind_eq_some_iff.mp ran
    obtain rfl := Option.some.inj ran
    obtain ⟨_,_,probed⟩ := Option.bind_eq_some_iff.mp probed
    obtain ⟨entry',there',exists_,_⟩ := find_found probed
    obtain rfl := Option.some.inj (there.symm.trans there')
    obtain ⟨below,isEntry⟩ := List.getElem?_eq_some_iff.mp there
    have restored : (table.entries.set index { entry with exists_ := false }).set index entry =
        table.entries := by
      rw [List.set_set,← isEntry,List.set_getElem_self]
    have freed := (existing_set entry (List.getElem?_set_self (a := { entry with exists_ := false }) below)
      rfl exists_).length_eq
    have le := sized.length_le
    have room := sized.room
    have bounded := sized.bounded
    rw [restored,sized.loaded,List.length_cons] at freed
    have fewer : (table.length + (2 ^ 64 - 1)) % 2 ^ 64 = table.length - 1 := by omega
    rw [fewer]
    have room' : table.length - 1 < table.capacity ∨ table.capacity = 1 := by omega
    exact sized.keeps List.length_set (Nat.eq_sub_of_add_eq freed.symm) room'

theorem Sized.run_sized (sized : Sized table) {operation : Operation κ ν}
    {table' : Table (PrimitiveEntry κ ν)}
    (ran : operation.run zeroKey zero hash rounds table = some (.returns table')) : Sized table' := by
  cases operation with
  | get key written memory =>
    obtain ⟨outcome,isFound,ran⟩ := Option.bind_eq_some_iff.mp ran
    cases outcome with
    | exit => exact nomatch Option.some.inj ran
    | returns found =>
      obtain rfl := Outcome.returns.inj (Option.some.inj ran)
      exact (sized.get_sized isFound).assign_sized written
  | has key =>
    obtain ⟨_,_,same⟩ := Option.map_eq_some_iff.mp ran
    exact Outcome.returns.inj same ▸ sized
  | remove key =>
    obtain ⟨smaller,isRemoved,same⟩ := Option.map_eq_some_iff.mp ran
    obtain rfl := Outcome.returns.inj same
    exact sized.remove_sized isRemoved

end

theorem sized_allocate (zeroKey : κ) (zero : ν) {capacity : Nat} (positive : 0 < capacity)
    (bounded : capacity < 2 ^ 64) : Sized (allocate zeroKey zero capacity) where
  loaded := by rw [allocate,existing_replicate,List.length_nil]
  positive := by simpa [allocate,Table.capacity] using positive
  bounded := by simpa [allocate,Table.capacity] using bounded
  room := .inl (by simpa [allocate,Table.capacity] using positive)

section
variable [DecidableEq κ] (zeroKey : κ) (zero : ν) (hash : κ → BitVec 32)

/-- The operation uses no index beyond its entries and its loops end, and what it expands keeps all
entries. -/
def Safe (table : Table (PrimitiveEntry κ ν)) (operation : Operation κ ν) : Prop :=
  ∃ count,∀ rounds > count,
    (operation.run zeroKey zero hash rounds table).isSome = true ∧
      ∀ memory larger,expand zeroKey zero hash memory rounds table = some (.returns larger) →
        (existing larger.entries).Perm (existing table.entries)

/-- The loops meet an entry to stop at, also those that move the entries to a larger table. -/
def Fits (table : Table (PrimitiveEntry κ ν)) : Operation κ ν → Prop
  | .get key _ memory =>
    if table.capacity / 2 < table.length + 1 then Grows hash memory table key
    else Probes table.capacity table.length table.entries key
  | .has key | .remove key => Probes table.capacity table.length table.entries key

instance (table : Table (PrimitiveEntry κ ν)) : DecidablePred (Fits hash table)
  | .get key _ memory => inferInstanceAs (Decidable (if table.capacity / 2 < table.length + 1 then
      Grows hash memory table key else Probes table.capacity table.length table.entries key))
  | .has key | .remove key =>
    inferInstanceAs (Decidable (Probes table.capacity table.length table.entries key))

def Throughout (property : Table (PrimitiveEntry κ ν) → Operation κ ν → Prop)
    (table : Table (PrimitiveEntry κ ν)) : List (Operation κ ν) → Prop
  | [] => True
  | operation :: rest => property table operation ∧
    ∀ rounds table',operation.run zeroKey zero hash rounds table = some (.returns table') →
      Throughout property table' rest

end

section
variable [DecidableEq κ] {table : Table (PrimitiveEntry κ ν)} {operation : Operation κ ν}

theorem Sized.run_isSome (sized : Sized table) (enough : newCapacity table ≤ rounds) :
    (operation.run zeroKey zero hash rounds table).isSome = true ↔ Fits hash table operation := by
  have within : table.capacity ≤ rounds := (Nat.le_add_right _ _).trans enough
  cases operation with
  | get key written memory =>
    rw [Fits,← sized.get_isSome zeroKey zero hash memory key enough,Operation.run]
    cases get zeroKey zero hash memory rounds table key with
    | none => rfl
    | some outcome => cases outcome <;> rfl
  | has key =>
    rw [Fits,← sized.probe_isSome zeroKey zero hash key within,Operation.run,has,Option.isSome_map,
      Option.isSome_map]
  | remove key =>
    rw [Fits,← sized.probe_isSome zeroKey zero hash key within,Operation.run,Option.isSome_map,
      remove_isSome]

theorem Sized.safe_iff_fits (sized : Sized table) :
    Safe zeroKey zero hash table operation ↔ Fits hash table operation := by
  constructor
  · rintro ⟨count,safe⟩
    exact (sized.run_isSome (Nat.le_add_left _ _)).mp (safe (count + 1 + newCapacity table) (by omega)).1
  · intro fits
    exact ⟨newCapacity table,fun rounds enough => ⟨(sized.run_isSome enough.le).mpr fits,
      fun _ larger ran => (sized.expand_returns ran).2.2.2⟩⟩

/-- A run is safe if and only if each of its operations fits the table that it begins with. -/
theorem safe_throughout_iff {capacity : Nat} (positive : 1 ≤ capacity) (bounded : capacity < 2 ^ 64)
    (operations : List (Operation κ ν)) :
    Throughout zeroKey zero hash (Safe zeroKey zero hash) (allocate zeroKey zero capacity) operations ↔
      Throughout zeroKey zero hash (Fits hash) (allocate zeroKey zero capacity) operations := by
  have sized := sized_allocate zeroKey zero positive bounded
  generalize allocate zeroKey zero capacity = table at sized
  induction operations generalizing table with
  | nil => rfl
  | cons operation rest ih =>
    apply and_congr sized.safe_iff_fits
    apply forall₃_congr
    intro rounds table' ran
    exact ih table' (sized.run_sized ran)

end

section
variable {rounds' : Nat} {entries newEntries old : List (PrimitiveEntry κ ν)}
  {table : Table (PrimitiveEntry κ ν)} {key : κ}

theorem walk_mono {newI place : Nat} (found : walk entries rounds newI = some place)
    (more : rounds ≤ rounds') : walk entries rounds' newI = some place := by
  induction rounds generalizing newI rounds' with
  | zero => exact nomatch found
  | succ rounds ih =>
    obtain ⟨rounds',rfl⟩ := Nat.exists_eq_succ_of_ne_zero (show rounds' ≠ 0 by omega)
    rw [walk] at found ⊢
    cases there : entries[newI]? with
    | none => simp [there] at found
    | some entry =>
      simp only [there] at found ⊢
      split_ifs at found ⊢ with exists_
      · exact ih found (by omega)
      · exact found

theorem move_mono {moved : List (PrimitiveEntry κ ν)} (ran : move hash rounds newEntries old = some moved)
    (more : rounds ≤ rounds') : move hash rounds' newEntries old = some moved := by
  induction old generalizing newEntries with
  | nil => exact ran
  | cons entry rest ih =>
    rw [move] at ran ⊢
    split_ifs at ran ⊢ with exists_
    · obtain ⟨newI,isHome,ran⟩ := Option.bind_eq_some_iff.mp ran
      obtain ⟨place,found,ran⟩ := Option.bind_eq_some_iff.mp ran
      rw [isHome,Option.bind_eq_bind,Option.bind_some,walk_mono found more,Option.bind_some]
      exact ih ran
    · exact ih ran

theorem expand_mono {outcome : Outcome (Table (PrimitiveEntry κ ν))}
    (ran : expand zeroKey zero hash memory rounds table = some outcome) (more : rounds ≤ rounds') :
    expand zeroKey zero hash memory rounds' table = some outcome := by
  unfold expand at ran ⊢
  simp only at ran ⊢
  split_ifs at ran ⊢
  · exact ran
  · exact ran
  · obtain ⟨moved,isMoved,same⟩ := Option.map_eq_some_iff.mp ran
    rw [move_mono isMoved more,Option.map_some,same]

variable [DecidableEq κ]

theorem getLoop_mono {index place : Nat} (found : getLoop entries key rounds index = some place)
    (more : rounds ≤ rounds') : getLoop entries key rounds' index = some place := by
  induction rounds generalizing index rounds' with
  | zero => exact nomatch found
  | succ rounds ih =>
    obtain ⟨rounds',rfl⟩ := Nat.exists_eq_succ_of_ne_zero (show rounds' ≠ 0 by omega)
    rw [getLoop] at found ⊢
    cases there : entries[index]? with
    | none => simp [there] at found
    | some entry =>
      simp only [there] at found ⊢
      split_ifs at found ⊢
      · exact found
      · exact ih found (by omega)
      · exact ih found (by omega)
      · exact found

theorem find_mono {ε : Type} {layout : Hashtable.Layout κ ν ε} {entries : List ε} {start index : Nat}
    {result : Option Nat} (found : find layout entries key start rounds index = some result)
    (more : rounds ≤ rounds') : find layout entries key start rounds' index = some result := by
  induction rounds generalizing index rounds' with
  | zero => exact nomatch found
  | succ rounds ih =>
    obtain ⟨rounds',rfl⟩ := Nat.exists_eq_succ_of_ne_zero (show rounds' ≠ 0 by omega)
    rw [find] at found ⊢
    cases there : entries[index]? with
    | none => simp [there] at found
    | some entry =>
      simp only [there] at found ⊢
      split_ifs at found ⊢
      · exact found
      · exact found
      · exact ih found (by omega)
      · exact ih found (by omega)
      · exact found

theorem probe_mono {result : Option Nat} (ran : probe zeroKey zero hash rounds table key = some result)
    (more : rounds ≤ rounds') : probe zeroKey zero hash rounds' table key = some result := by
  obtain ⟨index,isHome,found⟩ := Option.bind_eq_some_iff.mp ran
  rw [probe,isHome,Option.bind_eq_bind,Option.bind_some]
  exact find_mono found more

theorem getIn_mono {found : Table (PrimitiveEntry κ ν) × Nat}
    (ran : getIn hash rounds table key = some found) (more : rounds ≤ rounds') :
    getIn hash rounds' table key = some found := by
  obtain ⟨index,isHome,ran⟩ := Option.bind_eq_some_iff.mp ran
  obtain ⟨place,stopped,ran⟩ := Option.bind_eq_some_iff.mp ran
  rw [getIn,isHome,Option.bind_eq_bind,Option.bind_some,getLoop_mono stopped more,Option.bind_some]
  exact ran

theorem get_mono {outcome : Outcome (Table (PrimitiveEntry κ ν) × Nat)}
    (ran : get zeroKey zero hash memory rounds table key = some outcome) (more : rounds ≤ rounds') :
    get zeroKey zero hash memory rounds' table key = some outcome := by
  unfold get at ran ⊢
  split_ifs at ran ⊢
  · obtain ⟨expanded,ran',ran⟩ := Option.bind_eq_some_iff.mp ran
    rw [expand_mono ran' more,Option.bind_eq_bind,Option.bind_some]
    cases expanded with
    | exit => exact ran
    | returns larger =>
      obtain ⟨found,isFound,same⟩ := Option.bind_eq_some_iff.mp ran
      change (getIn hash rounds' larger key).bind _ = _
      rw [getIn_mono isFound more]
      exact same
  · obtain ⟨found,isFound,same⟩ := Option.map_eq_some_iff.mp ran
    rw [getIn_mono isFound more,Option.map_some,same]

theorem run_mono {operation : Operation κ ν} {outcome : Outcome (Table (PrimitiveEntry κ ν))}
    (ran : operation.run zeroKey zero hash rounds table = some outcome) (more : rounds ≤ rounds') :
    operation.run zeroKey zero hash rounds' table = some outcome := by
  cases operation with
  | get key written memory =>
    obtain ⟨found,isFound,ran⟩ := Option.bind_eq_some_iff.mp ran
    rw [Operation.run,get_mono isFound more]
    exact ran
  | has key =>
    obtain ⟨found,isFound,same⟩ := Option.map_eq_some_iff.mp ran
    obtain ⟨result,probed,isSome⟩ := Option.map_eq_some_iff.mp isFound
    rw [Operation.run,has,probe_mono probed more,Option.map_some,Option.map_some,same]
  | remove key =>
    obtain ⟨smaller,removed,same⟩ := Option.map_eq_some_iff.mp ran
    obtain ⟨result,probed,removed⟩ := Option.bind_eq_some_iff.mp removed
    rw [Operation.run,remove,probe_mono probed more,Option.bind_eq_bind,Option.bind_some]
    exact Option.map_eq_some_iff.mpr ⟨smaller,removed,same⟩

/-- All the rounds that are enough lead to the same. -/
theorem run_unique {operation : Operation κ ν} {outcome outcome' : Outcome (Table (PrimitiveEntry κ ν))}
    (ran : operation.run zeroKey zero hash rounds table = some outcome)
    (ran' : operation.run zeroKey zero hash rounds' table = some outcome') : outcome = outcome' :=
  Option.some.inj ((run_mono ran (Nat.le_max_left rounds rounds')).symm.trans
    (run_mono ran' (Nat.le_max_right rounds rounds')))

end

/-- Three keys for a table of four, which grows for the third one. -/
def thirdKey : List (Operation Nat Nat) :=
  [.get 5 (some 7) true,.get 2 (some 3) true,.get 9 (some 8) true,.has 9]

theorem thirdKey_fits :
    Throughout 0 0 (BitVec.ofNat 32) (Fits (BitVec.ofNat 32)) (allocate 0 0 4) thirdKey := by
  refine ⟨by decide,fun _ table ran => ?_⟩
  have first : thirdKey[0].run 0 0 (BitVec.ofNat 32) 6 (allocate 0 0 4) =
      some (.returns ⟨1,[⟨false,0,0⟩,⟨true,5,7⟩,⟨false,0,0⟩,⟨false,0,0⟩]⟩) := rfl
  obtain rfl := Outcome.returns.inj (run_unique ran first)
  refine ⟨by decide,fun _ table ran => ?_⟩
  have second : thirdKey[1].run 0 0 (BitVec.ofNat 32) 6
      ⟨1,[⟨false,0,0⟩,⟨true,5,7⟩,⟨false,0,0⟩,⟨false,0,0⟩]⟩ =
      some (.returns ⟨2,[⟨false,0,0⟩,⟨true,5,7⟩,⟨true,2,3⟩,⟨false,0,0⟩]⟩) := rfl
  obtain rfl := Outcome.returns.inj (run_unique ran second)
  refine ⟨by decide,fun _ table ran => ?_⟩
  have grown : thirdKey[2].run 0 0 (BitVec.ofNat 32) 6
      ⟨2,[⟨false,0,0⟩,⟨true,5,7⟩,⟨true,2,3⟩,⟨false,0,0⟩]⟩ =
      some (.returns ⟨3,[⟨false,0,0⟩,⟨false,0,0⟩,⟨true,2,3⟩,⟨true,9,8⟩,⟨false,0,0⟩,⟨true,5,7⟩]⟩) := rfl
  obtain rfl := Outcome.returns.inj (run_unique ran grown)
  exact ⟨by decide,fun _ _ _ => trivial⟩

theorem thirdKey_safe :
    Throughout 0 0 (BitVec.ofNat 32) (Safe 0 0 (BitVec.ofNat 32)) (allocate 0 0 4) thirdKey :=
  (safe_throughout_iff (by decide) (by decide) _).mpr thirdKey_fits

/-- Two keys whose home is the last entry of a table of four. -/
theorem twoEntries_not_safe : ¬Throughout 0 0 (BitVec.ofNat 32) (Safe 0 0 (BitVec.ofNat 32))
    (allocate 0 0 2) [Operation.get 3 none true,Operation.get 7 none true,Operation.get 0 none true] := by
  rintro ⟨_,second⟩
  obtain ⟨_,third⟩ := second 4 ⟨1,[⟨false,0,0⟩,⟨true,3,0⟩]⟩ rfl
  obtain ⟨safe,_⟩ := third 4 ⟨2,[⟨true,3,0⟩,⟨true,7,0⟩,⟨false,0,0⟩]⟩ rfl
  have sized : Sized (⟨2,[⟨true,3,0⟩,⟨true,7,0⟩,⟨false,0,0⟩]⟩ : Table (PrimitiveEntry Nat Nat)) :=
    ⟨rfl,by decide,by decide,by decide⟩
  exact absurd (sized.safe_iff_fits.mp safe) (by decide)

end NestingHashtable
end Memoir
