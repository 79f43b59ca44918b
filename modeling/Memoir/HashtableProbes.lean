import Mathlib.Data.List.Count
import Memoir.Hashtable

/-! The probe loops of the hash tables end: a table is at most half full, so that every loop meets
an empty entry. -/
namespace Memoir
namespace Hashtable
open LinearProbing

variable {κ ν ε : Type}

def occupant (layout : Layout κ ν ε) (entries : List ε) (index : Nat) : Option κ :=
  (entries[index]?).bind fun entry =>
    if layout.occupied entry then some (layout.key entry) else none

section
variable {layout : Layout κ ν ε} {entries : List ε} {index start d : Nat} {key : κ}

theorem occupant_eq_some {entry : ε} (there : entries[index]? = some entry) {k : κ} :
    occupant layout entries index = some k ↔ layout.occupied entry = true ∧ layout.key entry = k := by
  simp [occupant,there]

theorem occupant_eq_none {entry : ε} (there : entries[index]? = some entry) :
    occupant layout entries index = none ↔ layout.occupied entry = false := by
  simp [occupant,there]

/-- The next round looks at the next position. -/
theorem next_position (some : 0 < entries.length) (start k : Nat) :
    (if entries.length ≤ position entries.length start k + 1 then 0
      else position entries.length start k + 1) = position entries.length start (k + 1) := by
  have below := position_lt some start k
  rw [position_succ]
  split_ifs with wraps
  · rw [show position entries.length start k + 1 = entries.length by omega,Nat.mod_self]
  · rw [Nat.mod_eq_of_lt (by omega)]

theorem home_lt (hash : κ → Nat) (some : 0 < entries.length) (key : κ) :
    home hash entries.length key < entries.length :=
  Nat.lt_of_le_of_lt Nat.and_le_right (Nat.sub_one_lt (Nat.pos_iff_ne_zero.mp some))

variable [DecidableEq κ]

theorem find_reaches (rounds k : Nat) (began : start < entries.length) (below : d < entries.length)
    (passed : Passed entries.length (occupant layout entries) start key d)
    (stop : occupant layout entries (position entries.length start d) = none ∨
      occupant layout entries (position entries.length start d) = some key)
    (upTo : k ≤ d) (enough : d < k + rounds) :
    find layout entries key start rounds (position entries.length start k) =
      some (if occupant layout entries (position entries.length start d) = some key then
        some (position entries.length start d) else none) := by
  induction rounds generalizing k with
  | zero => omega
  | succ rounds ih =>
    have nonempty := Nat.zero_lt_of_lt below
    have bound := position_lt nonempty start k
    have there := List.getElem?_eq_getElem bound
    rw [find,there]
    rcases Nat.lt_or_eq_of_le upTo with before | rfl
    · obtain ⟨other,isOther,apart⟩ := passed k before
      obtain ⟨occupied,isKey⟩ := (occupant_eq_some there).mp isOther
      have notBegin : position entries.length start k + 1 ≠ start := by
        intro same
        have again : position entries.length start (k + 1) = position entries.length start 0 := by
          rw [position_succ,same,position_zero began,Nat.mod_eq_of_lt began]
        have := position_injective (by omega) nonempty again
        omega
      simp only [occupied,if_true]
      rw [if_neg (fun same => apart (isKey ▸ same.symm)),if_neg notBegin,
        next_position nonempty]
      exact ih (k + 1) before (by omega)
    · rcases stop with isEmpty | isKey
      · simp [(occupant_eq_none there).mp isEmpty,isEmpty]
      · obtain ⟨occupied,isKey'⟩ := (occupant_eq_some there).mp isKey
        simp [occupied,isKey',isKey]

/-- What `set` leaves at the entry that it reaches. -/
def put (layout : Layout κ ν ε) (entry : ε) (key : κ) (value : ν) : ε :=
  if layout.occupied entry then layout.overwrite entry value else layout.fill entry key value

theorem setLoop_reaches (rounds k : Nat) {entry : ε} (value : ν)
    (passed : Passed entries.length (occupant layout entries) start key d)
    (there : entries[position entries.length start d]? = some entry)
    (stop : occupant layout entries (position entries.length start d) = none ∨
      occupant layout entries (position entries.length start d) = some key)
    (upTo : k ≤ d) (enough : d < k + rounds) :
    setLoop layout entries key value rounds (position entries.length start k) =
      some (entries.set (position entries.length start d) (put layout entry key value),
        !layout.occupied entry) := by
  have nonempty : 0 < entries.length := Nat.zero_lt_of_lt (List.getElem?_eq_some_iff.mp there).1
  induction rounds generalizing k with
  | zero => omega
  | succ rounds ih =>
    rw [setLoop]
    rcases Nat.lt_or_eq_of_le upTo with before | rfl
    · obtain ⟨other,isOther,apart⟩ := passed k before
      have there' := List.getElem?_eq_getElem (position_lt nonempty start k)
      obtain ⟨occupied,isKey⟩ := (occupant_eq_some there').mp isOther
      rw [there']
      simp only [occupied,if_true]
      rw [if_neg (fun same => apart (isKey ▸ same.symm)),next_position nonempty]
      exact ih (k + 1) before (by omega)
    · rw [there]
      rcases stop with isEmpty | isKey
      · have empty := (occupant_eq_none there).mp isEmpty
        simp [put,empty]
      · obtain ⟨occupied,isKey'⟩ := (occupant_eq_some there).mp isKey
        simp [put,occupied,isKey']

end

section
variable {layout : Layout κ ν ε} {entries : List ε} (hash : κ → Nat)

def load (layout : Layout κ ν ε) (entries : List ε) : Nat := entries.countP layout.occupied

theorem exists_empty (room : load layout entries < entries.length) :
    ∃ slot < entries.length, occupant layout entries slot = none := by
  by_contra full
  apply Nat.ne_of_lt room
  apply List.countP_eq_length.mpr
  intro entry member
  obtain ⟨slot,below,rfl⟩ := List.getElem_of_mem member
  by_contra notOccupied
  apply full
  refine ⟨slot,below,(occupant_eq_none (List.getElem?_eq_getElem below)).mpr ?_⟩
  exact Bool.eq_false_iff.mpr notOccupied

theorem load_set (layout : Layout κ ν ε) {index : Nat} {entry : ε} (entry' : ε)
    (there : entries[index]? = some entry) :
    load layout (entries.set index entry') + (if layout.occupied entry then 1 else 0) =
      load layout entries + if layout.occupied entry' then 1 else 0 := by
  obtain ⟨below,rfl⟩ := List.getElem?_eq_some_iff.mp there
  unfold load
  rw [List.countP_set below]
  have counted : (if layout.occupied entries[index] = true then 1 else 0) ≤
      entries.countP layout.occupied := by
    split_ifs with occupied
    · exact List.countP_pos_iff.mpr ⟨_,List.getElem_mem below,occupied⟩
    · exact Nat.zero_le _
  omega

theorem load_put (layout : Layout κ ν ε) {index : Nat} {entry : ε}
    (there : entries[index]? = some entry) (key : κ) (value : ν) :
    load layout (entries.set index (put layout entry key value)) ≤
      load layout entries + if layout.occupied entry then 0 else 1 := by
  have changed := load_set layout (put layout entry key value) there
  unfold put at changed ⊢
  cases occupied : layout.occupied entry with
  | true =>
    simp only [occupied,if_true,layout.occupied_overwrite] at changed ⊢
    omega
  | false =>
    simp only [occupied,Bool.false_eq_true,if_false] at changed ⊢
    split_ifs at changed <;> omega

/-- Where the probes of a key stop, when there is an empty entry. -/
theorem stops (empty : ∃ slot < entries.length, occupant layout entries slot = none) (key : κ) :
    ∃ d entry, d < entries.length ∧
      Passed entries.length (occupant layout entries) (home hash entries.length key) key d ∧
      entries[position entries.length (home hash entries.length key) d]? = some entry ∧
      (occupant layout entries (position entries.length (home hash entries.length key) d) = none ∨
        occupant layout entries (position entries.length (home hash entries.length key) d) =
          some key) := by
  obtain ⟨d,below,passed,stop⟩ := exists_stop empty (home hash entries.length key) key
  have nonempty := Nat.zero_lt_of_lt below
  exact ⟨d,_,below,passed,List.getElem?_eq_getElem (position_lt nonempty _ d),stop⟩

variable [DecidableEq κ]

theorem find_stops (empty : ∃ slot < entries.length, occupant layout entries slot = none) (key : κ)
    {rounds : Nat} (enough : entries.length ≤ rounds) :
    ∃ found, find layout entries key (home hash entries.length key) rounds
        (home hash entries.length key) = some found ∧
      ∀ index, found = some index →
        index < entries.length ∧ occupant layout entries index = some key := by
  obtain ⟨d,entry,below,passed,_,stop⟩ := stops hash empty key
  have nonempty := Nat.zero_lt_of_lt below
  have began := home_lt hash nonempty key
  have reached := find_reaches rounds 0 began below passed stop (Nat.zero_le d) (by omega)
  rw [position_zero began] at reached
  refine ⟨_,reached,fun index is => ?_⟩
  split_ifs at is with isKey
  obtain rfl := Option.some.inj is
  exact ⟨position_lt nonempty _ d,isKey⟩

theorem setEntries_stops (empty : ∃ slot < entries.length, occupant layout entries slot = none)
    (key : κ) (value : ν) {rounds : Nat} (enough : entries.length ≤ rounds) :
    ∃ index entry, entries[index]? = some entry ∧
      setEntries layout hash rounds entries key value =
        some (entries.set index (put layout entry key value),!layout.occupied entry) := by
  obtain ⟨d,entry,below,passed,there,stop⟩ := stops hash empty key
  have nonempty := Nat.zero_lt_of_lt below
  have reached := setLoop_reaches rounds 0 value passed there stop (Nat.zero_le d) (by omega)
  rw [position_zero (home_lt hash nonempty key)] at reached
  exact ⟨_,entry,there,reached⟩

/-- Entries can be moved to others that have room for them. -/
theorem move_stops {rounds : Nat} (old : List ε) (enough : entries.length ≤ rounds)
    (room : load layout entries + load layout old < entries.length) :
    ∃ moved, move layout hash rounds entries old = some moved ∧ moved.length = entries.length ∧
      load layout moved ≤ load layout entries + load layout old := by
  induction old generalizing entries with
  | nil => exact ⟨entries,rfl,rfl,Nat.le_refl _⟩
  | cons entry old ih =>
    rw [move]
    have counted : load layout (entry :: old) =
        load layout old + if layout.occupied entry then 1 else 0 := List.countP_cons
    split_ifs with occupied
    · rw [occupied,if_pos rfl] at counted
      have room' : load layout entries < entries.length := by omega
      obtain ⟨index,entry',there,put_⟩ := setEntries_stops hash (exists_empty room')
        (layout.key entry) (layout.value entry) enough
      have more := load_put layout there (layout.key entry) (layout.value entry)
      have atMost : (if layout.occupied entry' = true then 0 else 1) ≤ 1 := by split_ifs <;> omega
      rw [put_]
      have enough' : (entries.set index
          (put layout entry' (layout.key entry) (layout.value entry))).length ≤ rounds := by
        rw [List.length_set]
        exact enough
      obtain ⟨moved,isMoved,length,loaded⟩ := ih enough' (by rw [List.length_set]; omega)
      rw [List.length_set] at length
      exact ⟨moved,isMoved,length,by omega⟩
    · rw [if_neg occupied] at counted
      obtain ⟨moved,isMoved,length,loaded⟩ := ih enough (by omega)
      exact ⟨moved,isMoved,length,by omega⟩

/-- A result of the loop of `set`, after however many rounds. -/
theorem setLoop_put {key : κ} {value : ν} {rounds index : Nat} {result : List ε × Bool}
    (ran : setLoop layout entries key value rounds index = some result) :
    ∃ slot entry, entries[slot]? = some entry ∧
      result = (entries.set slot (put layout entry key value),!layout.occupied entry) := by
  induction rounds generalizing index with
  | zero => exact absurd ran (by simp [setLoop])
  | succ rounds ih =>
    rw [setLoop] at ran
    cases there : entries[index]? with
    | none => simp [there] at ran
    | some entry =>
      simp only [there] at ran
      split_ifs at ran with occupied isKey
      · exact ⟨index,entry,there,by simp [put,occupied,Option.some.inj ran.symm]⟩
      · exact ih ran
      · exact ih ran
      · exact ⟨index,entry,there,by simp [put,occupied,Option.some.inj ran.symm]⟩

theorem find_found {key : κ} {start rounds index found : Nat}
    (ran : find layout entries key start rounds index = some (some found)) :
    ∃ entry, entries[found]? = some entry ∧ layout.occupied entry = true ∧
      layout.key entry = key := by
  induction rounds generalizing index with
  | zero => exact absurd ran (by simp [find])
  | succ rounds ih =>
    rw [find] at ran
    cases there : entries[index]? with
    | none => simp [there] at ran
    | some entry =>
      simp only [there] at ran
      split_ifs at ran with occupied isKey
      · obtain rfl := Option.some.inj (Option.some.inj ran)
        exact ⟨entry,there,occupied,isKey.symm⟩
      · exact absurd ran (by simp)
      · exact ih ran
      · exact ih ran
      · exact absurd ran (by simp)

theorem move_load {rounds : Nat} {old moved : List ε}
    (ran : move layout hash rounds entries old = some moved) :
    moved.length = entries.length ∧ load layout moved ≤ load layout entries + load layout old := by
  induction old generalizing entries with
  | nil =>
    obtain rfl := Option.some.inj ran
    exact ⟨rfl,Nat.le_add_right _ _⟩
  | cons entry old ih =>
    rw [move] at ran
    have counted : load layout (entry :: old) =
        load layout old + if layout.occupied entry then 1 else 0 := List.countP_cons
    split_ifs at ran with occupied
    · rw [occupied,if_pos rfl] at counted
      obtain ⟨result,isSet,ran⟩ := Option.bind_eq_some_iff.mp ran
      obtain ⟨slot,entry',there,rfl⟩ := setLoop_put isSet
      obtain ⟨length,loaded⟩ := ih ran
      have more := load_put layout there (layout.key entry) (layout.value entry)
      have atMost : (if layout.occupied entry' = true then 0 else 1) ≤ 1 := by split_ifs <;> omega
      rw [List.length_set] at length
      exact ⟨length,by omega⟩
    · rw [if_neg occupied] at counted
      obtain ⟨length,loaded⟩ := ih ran
      exact ⟨length,by omega⟩

end

/-- No more entries are occupied than the length says, which is at most half of the capacity. -/
structure Roomy (layout : Layout κ ν ε) (table : Table ε) : Prop where
  loaded : load layout table.entries ≤ table.length
  half : 2 * table.length ≤ table.capacity
  some : 0 < table.capacity
  bounded : table.capacity < 2 ^ 64

section
variable {layout : Layout κ ν ε} {table table' : Table ε} {hash : κ → Nat}

theorem Roomy.empty (roomy : Roomy layout table) :
    ∃ slot < table.capacity, occupant layout table.entries slot = none := by
  have half := roomy.half
  have some := roomy.some
  exact exists_empty (Nat.lt_of_le_of_lt roomy.loaded (by unfold Table.capacity at *; omega))

theorem roomy_allocate (layout : Layout κ ν ε) {capacity : Nat} (some : 0 < capacity)
    (bounded : capacity < 2 ^ 64) : Roomy layout (allocate layout capacity) where
  loaded := by simp [allocate,load,List.countP_replicate,layout.occupied_empty]
  half := Nat.zero_le _
  some := by simpa [allocate,Table.capacity] using some
  bounded := by simpa [allocate,Table.capacity] using bounded

variable [DecidableEq κ] {rounds : Nat} {key : κ} {value : ν}

theorem set_roomy (loaded : load layout table.entries ≤ table.length)
    (half : 2 * (table.length + 1) ≤ table.capacity) (bounded : table.capacity < 2 ^ 64)
    (ran : set layout hash rounds table key value = some table') : Roomy layout table' := by
  obtain ⟨result,isSet,rfl⟩ := Option.map_eq_some_iff.mp ran
  obtain ⟨slot,entry,there,rfl⟩ := setLoop_put isSet
  have more := load_put layout there key value
  have wraps : (table.length + 1) % 2 ^ 64 = table.length + 1 := Nat.mod_eq_of_lt (by omega)
  unfold Table.capacity at half bounded
  cases occupied : layout.occupied entry with
  | true =>
    rw [if_pos occupied] at more
    exact ⟨by simp; omega,by simp [Table.capacity]; omega,by simp [Table.capacity]; omega,
      by simpa [Table.capacity] using bounded⟩
  | false =>
    rw [if_neg (by simp [occupied])] at more
    simp only [Bool.not_false,if_true,wraps]
    exact ⟨Nat.le_trans more (Nat.succ_le_succ loaded),by simp only [Table.capacity,List.length_set]; omega,
      by simp only [Table.capacity,List.length_set]; omega,
      by simpa [Table.capacity] using bounded⟩

/-- A larger table has the same length, and its capacity is twice the old one. -/
theorem expand_roomy (roomy : Roomy layout table)
    (ran : expand layout hash rounds table = some table') :
    table'.length = table.length ∧ table'.capacity = table.capacity * 2 ∧
      table.capacity * 2 < 2 ^ 64 ∧ load layout table'.entries ≤ table.length := by
  have bounded := roomy.bounded
  have some := roomy.some
  unfold expand at ran
  simp only at ran
  split_ifs at ran with overflow
  have doubled : table.capacity * 2 < 2 ^ 64 := by omega
  obtain ⟨entries,moved,rfl⟩ := Option.map_eq_some_iff.mp ran
  obtain ⟨length,loaded⟩ := move_load hash moved
  rw [List.length_replicate,Nat.mod_eq_of_lt doubled] at length
  refine ⟨rfl,length,doubled,?_⟩
  have nothing : load layout (List.replicate (table.capacity * 2 % 2 ^ 64) layout.empty) = 0 := by
    simp [load,List.countP_replicate,layout.occupied_empty]
  rw [nothing,Nat.zero_add] at loaded
  exact Nat.le_trans loaded roomy.loaded

theorem write_roomy (roomy : Roomy layout table)
    (ran : write layout hash rounds table key value = some table') : Roomy layout table' := by
  have half := roomy.half
  have some := roomy.some
  unfold write at ran
  split_ifs at ran with isHalf
  · obtain ⟨larger,expanded,ran⟩ := Option.bind_eq_some_iff.mp ran
    obtain ⟨length,capacity,doubled,loaded⟩ := expand_roomy roomy expanded
    exact set_roomy (length ▸ loaded) (by omega) (by omega) ran
  · exact set_roomy roomy.loaded (by omega) roomy.bounded ran

theorem remove_roomy (roomy : Roomy layout table)
    (ran : remove layout hash rounds table key = some table') : Roomy layout table' := by
  obtain ⟨found,probed,ran⟩ := Option.bind_eq_some_iff.mp ran
  cases found with
  | none => exact Option.some.inj ran ▸ roomy
  | some index =>
    obtain ⟨entry,there,occupied,_⟩ := find_found probed
    simp only [there,Option.bind_eq_bind,Option.bind_some,Option.pure_def,Option.some.injEq] at ran
    subst ran
    have less := load_set layout (layout.clear entry) there
    rw [occupied,layout.occupied_clear,if_pos rfl,if_neg (by simp)] at less
    have loaded := roomy.loaded
    have half := roomy.half
    have bounded := roomy.bounded
    have wraps : (table.length + (2 ^ 64 - 1)) % 2 ^ 64 = table.length - 1 := by omega
    exact ⟨by simp only [wraps]; omega,by simp only [wraps,Table.capacity,List.length_set] at *; omega,
      by simpa [Table.capacity] using roomy.some,by simpa [Table.capacity] using bounded⟩

theorem probe_ends (roomy : Roomy layout table) (hash : κ → Nat) (key : κ)
    (enough : table.capacity ≤ rounds) :
    ∃ found, probe layout hash rounds table key = some found ∧
      ∀ index, found = some index →
        index < table.capacity ∧ occupant layout table.entries index = some key :=
  find_stops hash roomy.empty key enough

theorem set_ends (empty : ∃ slot < table.capacity, occupant layout table.entries slot = none)
    (hash : κ → Nat) (key : κ) (value : ν) (enough : table.capacity ≤ rounds) :
    (set layout hash rounds table key value).isSome := by
  obtain ⟨index,entry,_,isSet⟩ := setEntries_stops hash empty key value enough
  rw [set,isSet]
  rfl

theorem read_ends (roomy : Roomy layout table) (hash : κ → Nat) (key : κ)
    (enough : table.capacity ≤ rounds) : (read layout hash rounds table key).isSome := by
  obtain ⟨found,probed,inside⟩ := probe_ends roomy hash key enough
  unfold read
  rw [probed]
  cases found with
  | none => rfl
  | some index =>
    have there := List.getElem?_eq_getElem (inside index rfl).1
    simp only [Option.bind_eq_bind,Option.bind_some,there,Option.pure_def,Option.isSome_some]

theorem remove_ends (roomy : Roomy layout table) (hash : κ → Nat) (key : κ)
    (enough : table.capacity ≤ rounds) : (remove layout hash rounds table key).isSome := by
  obtain ⟨found,probed,inside⟩ := probe_ends roomy hash key enough
  unfold remove
  rw [probed]
  cases found with
  | none => rfl
  | some index =>
    have there := List.getElem?_eq_getElem (inside index rfl).1
    simp only [Option.bind_eq_bind,Option.bind_some,there,Option.pure_def,Option.isSome_some]

theorem expand_ends (roomy : Roomy layout table) (hash : κ → Nat)
    (doubled : table.capacity * 2 < 2 ^ 64) (enough : table.capacity * 2 ≤ rounds) :
    (expand layout hash rounds table).isSome := by
  have loaded := roomy.loaded
  have half := roomy.half
  have some := roomy.some
  have nothing : load layout (List.replicate (table.capacity * 2) layout.empty) = 0 := by
    simp [load,List.countP_replicate,layout.occupied_empty]
  have enough' : (List.replicate (table.capacity * 2) layout.empty).length ≤ rounds := by
    rw [List.length_replicate]
    exact enough
  have room : load layout (List.replicate (table.capacity * 2) layout.empty) +
      load layout table.entries < (List.replicate (table.capacity * 2) layout.empty).length := by
    rw [nothing,List.length_replicate]
    omega
  obtain ⟨moved,isMoved,_⟩ := move_stops hash table.entries enough' room
  unfold expand
  simp only [Nat.mod_eq_of_lt doubled]
  rw [if_neg (by omega),isMoved]
  rfl

theorem write_ends (roomy : Roomy layout table) (hash : κ → Nat) (key : κ) (value : ν)
    (doubled : table.capacity * 2 < 2 ^ 64) (enough : table.capacity * 2 ≤ rounds) :
    (write layout hash rounds table key value).isSome := by
  unfold write
  split_ifs
  · obtain ⟨larger,expanded⟩ := Option.isSome_iff_exists.mp (expand_ends roomy hash doubled enough)
    obtain ⟨_,capacity,_,loaded⟩ := expand_roomy roomy expanded
    have half := roomy.half
    have some := roomy.some
    rw [expanded,Option.bind_eq_bind,Option.bind_some]
    apply set_ends _ hash key value (by omega)
    exact exists_empty (Nat.lt_of_le_of_lt loaded (by unfold Table.capacity at *; omega))
  · exact set_ends roomy.empty hash key value (by omega)

end

/-- The tables that the operations lead to. Reads and lookups leave a table as it is. -/
inductive Reachable [DecidableEq κ] (layout : Layout κ ν ε) (hash : κ → Nat) (capacity : Nat) :
    Table ε → Prop
  | allocate : Reachable layout hash capacity (allocate layout capacity)
  | write {table table' : Table ε} (rounds : Nat) (key : κ) (value : ν)
      (before : Reachable layout hash capacity table)
      (ran : write layout hash rounds table key value = some table') :
      Reachable layout hash capacity table'
  | remove {table table' : Table ε} (rounds : Nat) (key : κ)
      (before : Reachable layout hash capacity table)
      (ran : remove layout hash rounds table key = some table') :
      Reachable layout hash capacity table'

section
variable [DecidableEq κ] {layout : Layout κ ν ε} {hash : κ → Nat} {capacity : Nat} {table : Table ε}

theorem Reachable.roomy (some : 0 < capacity) (bounded : capacity < 2 ^ 64)
    (reachable : Reachable layout hash capacity table) : Roomy layout table := by
  induction reachable with
  | allocate => exact roomy_allocate layout some bounded
  | write rounds key value before ran ih => exact write_roomy ih ran
  | remove rounds key before ran ih => exact remove_roomy ih ran

/-- A table stays at most half full, and its loops end: none runs out of rounds or looks beyond
the entries when it has a round for each entry. -/
theorem loops_end (some : 0 < capacity) (bounded : capacity < 2 ^ 64)
    (reachable : Reachable layout hash capacity table) :
    load layout table.entries ≤ table.length ∧ 2 * table.length ≤ table.capacity ∧
      (∃ slot < table.capacity, occupant layout table.entries slot = none) ∧
      ∀ (key : κ) (value : ν) (rounds : Nat), table.capacity ≤ rounds →
        (has layout hash rounds table key).isSome ∧ (read layout hash rounds table key).isSome ∧
        (remove layout hash rounds table key).isSome ∧
        (set layout hash rounds table key value).isSome ∧
        (table.capacity * 2 < 2 ^ 64 → table.capacity * 2 ≤ rounds →
          (expand layout hash rounds table).isSome ∧
          (write layout hash rounds table key value).isSome) := by
  have roomy := reachable.roomy some bounded
  refine ⟨roomy.loaded,roomy.half,roomy.empty,fun key value rounds enough => ?_⟩
  refine ⟨?_,read_ends roomy hash key enough,remove_ends roomy hash key enough,
    set_ends roomy.empty hash key value enough,fun doubled enough' =>
      ⟨expand_ends roomy hash doubled enough',write_ends roomy hash key value doubled enough'⟩⟩
  obtain ⟨found,probed,_⟩ := probe_ends roomy hash key enough
  rw [has,probed]
  rfl

end

/-- One key in a table that was allocated with one entry. -/
def oneKey : Table (PrimitiveEntry Nat Nat) := ⟨1,[⟨false,0,0⟩,⟨true,5,7⟩]⟩

theorem oneKey_loops_end :
    load (primitive 0 0) oneKey.entries ≤ oneKey.length ∧ 2 * oneKey.length ≤ oneKey.capacity ∧
      (∃ slot < oneKey.capacity, occupant (primitive 0 0) oneKey.entries slot = none) ∧
      ∀ (key value rounds : Nat), oneKey.capacity ≤ rounds →
        (has (primitive 0 0) id rounds oneKey key).isSome ∧
        (read (primitive 0 0) id rounds oneKey key).isSome ∧
        (remove (primitive 0 0) id rounds oneKey key).isSome ∧
        (set (primitive 0 0) id rounds oneKey key value).isSome ∧
        (oneKey.capacity * 2 < 2 ^ 64 → oneKey.capacity * 2 ≤ rounds →
          (expand (primitive 0 0) id rounds oneKey).isSome ∧
          (write (primitive 0 0) id rounds oneKey key value).isSome) :=
  loops_end (by decide : 0 < 1) (by decide) (.write 2 5 7 .allocate rfl)

end Hashtable
end Memoir
