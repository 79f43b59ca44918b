import Memoir.HashtableRefines
import Memoir.NestingRuns

/-! When the nesting hash tables refine finite maps. A new key points to what was left at its entry, and
the removal of a key ends the probes that go on at its entry. -/
namespace Memoir
namespace NestingHashtable
open Hashtable (PrimitiveEntry Table Observation primitive find find_found find_reaches load exists_empty
  occupant occupant_eq occupant_eq_some occupant_eq_none occupant_set occupant_clear stored stored_lt
  stored_set Lists keys_insert erase_absent)
open LinearProbing

variable {κ ν : Type}

section
variable [DecidableEq κ] (zeroKey : κ) (zero : ν) (hash : κ → BitVec 32) (rounds : Nat)

def Operation.answer (table : Table (PrimitiveEntry κ ν)) : Operation κ ν → Option (Observation ν)
  | .get key _ memory => do
    match ← NestingHashtable.get zeroKey zero hash memory rounds table key with
    | .exit => none
    | .returns found => (found.1.entries[found.2]?).map fun entry => .value entry.value
  | .has key => (NestingHashtable.has zeroKey zero hash rounds table key).map .flag
  | .remove _ => some .nothing

/-- The same operation on a finite map. A new key points to any value. -/
def Operation.Meaning (map : Finmap fun _ : κ => ν) :
    Operation κ ν → Observation ν → (Finmap fun _ : κ => ν) → Prop
  | .get key written _,shown,next => ∃ value,shown = .value value ∧
      (∀ there,map.lookup key = some there → value = there) ∧
      next = map.insert key (written.getD value)
  | .has key,shown,next => next = map ∧ shown = .flag (decide (key ∈ map))
  | .remove key,shown,next => shown = .nothing ∧ next = map.erase key

def begins (capacity : Nat) (key : κ) : Nat := (hash key).toNat % (capacity % 2 ^ 32)

/-- A removed key is at an entry where the search for no other key that is there goes on. -/
def Kept (table : Table (PrimitiveEntry κ ν)) : Operation κ ν → Prop
  | .remove key => ∀ index < table.capacity,
    occupant (primitive zeroKey zero) table.entries index = some key →
    ∀ other d,d < table.capacity →
      occupant (primitive zeroKey zero) table.entries
        (position table.capacity (begins hash table.capacity other) d) = some other →
      position table.capacity (begins hash table.capacity other) d ≠ index →
      ∀ e < d,position table.capacity (begins hash table.capacity other) e ≠ index
  | .get _ _ _ | .has _ => True

/-- The size is that of the map, and the lookups that end find its keys. -/
def Shows (table : Table (PrimitiveEntry κ ν)) (map : Finmap fun _ : κ => ν) : Prop :=
  table.length = map.keys.card ∧ ∀ key rounds found,
    has zeroKey zero hash rounds table key = some found → found = decide (key ∈ map)

/-- The table shows the map before and after every operation, and so do the operations, up to one that
ends the program. -/
def Refines (table : Table (PrimitiveEntry κ ν)) (map : Finmap fun _ : κ => ν) :
    List (Operation κ ν) → Prop
  | [] => Shows zeroKey zero hash table map
  | operation :: rest => Shows zeroKey zero hash table map ∧ ∃ rounds,
    operation.run zeroKey zero hash rounds table = some .exit ∨
      ∃ table' shown map',operation.run zeroKey zero hash rounds table = some (.returns table') ∧
        operation.answer zeroKey zero hash rounds table = some shown ∧
        operation.Meaning map shown map' ∧ Refines table' map' rest

end

section
variable [DecidableEq κ] {zeroKey : κ} {zero : ν} {hash : κ → BitVec 32} {rounds rounds' : Nat}
  {table : Table (PrimitiveEntry κ ν)}

theorem answer_mono {operation : Operation κ ν} {shown : Observation ν}
    (answered : operation.answer zeroKey zero hash rounds table = some shown) (more : rounds ≤ rounds') :
    operation.answer zeroKey zero hash rounds' table = some shown := by
  cases operation with
  | get key written memory =>
    obtain ⟨found,isFound,answered⟩ := Option.bind_eq_some_iff.mp answered
    rw [Operation.answer,get_mono isFound more]
    exact answered
  | has key =>
    obtain ⟨found,isFound,same⟩ := Option.map_eq_some_iff.mp answered
    obtain ⟨result,probed,isSome⟩ := Option.map_eq_some_iff.mp isFound
    rw [Operation.answer,has,probe_mono probed more,Option.map_some,← same,← isSome]
    rfl
  | remove key => exact answered

theorem answer_unique {operation : Operation κ ν} {shown shown' : Observation ν}
    (answered : operation.answer zeroKey zero hash rounds table = some shown)
    (answered' : operation.answer zeroKey zero hash rounds' table = some shown') : shown = shown' :=
  Option.some.inj ((answer_mono answered (Nat.le_max_left rounds rounds')).symm.trans
    (answer_mono answered' (Nat.le_max_right rounds rounds')))

end

section
variable {zeroKey : κ} {zero : ν} {hash : κ → BitVec 32} {rounds : Nat}
  {entries newEntries old moved : List (PrimitiveEntry κ ν)} {key : κ} {value : ν} {index d : Nat}

theorem load_existing (zeroKey : κ) (zero : ν) (entries : List (PrimitiveEntry κ ν)) :
    load (primitive zeroKey zero) entries = (existing entries).length :=
  List.countP_eq_length_filter

theorem stored_existing (zeroKey : κ) (zero : ν) :
    (∃ index,stored (primitive zeroKey zero) entries index = some (key,value)) ↔ ⟨true,key,value⟩ ∈ existing entries := by
  unfold existing
  rw [List.mem_filter,and_iff_left rfl,List.mem_iff_getElem?]
  apply exists_congr
  intro index
  unfold stored
  rw [Option.bind_eq_some_iff]
  constructor
  · rintro ⟨⟨exists_,key',value'⟩,there,same⟩
    cases exists_ with
    | false => exact nomatch same
    | true =>
      obtain ⟨rfl,rfl⟩ := Prod.mk.inj (Option.some.inj same)
      exact there
  · intro there
    exact ⟨_,there,rfl⟩

theorem occupant_taken (zeroKey : κ) (zero : ν) (member : index ∈ taken entries) :
    ∃ key,occupant (primitive zeroKey zero) entries index = some key ∧
      ∃ entry ∈ existing entries,entry.key = key := by
  obtain ⟨entry,there,exists_⟩ := mem_taken.mp member
  exact ⟨entry.key,(occupant_eq_some there).mpr ⟨exists_,rfl⟩,entry,
    List.mem_filter.mpr ⟨List.mem_of_getElem? there,exists_⟩,rfl⟩

theorem walk_passes {newI place : Nat} (found : walk entries rounds newI = some place) :
    newI ≤ place ∧ ∀ p,newI ≤ p → p < place → p ∈ taken entries := by
  induction rounds generalizing newI with
  | zero => exact nomatch found
  | succ rounds ih =>
    rw [walk] at found
    cases there : entries[newI]? with
    | none => simp [there] at found
    | some entry =>
      simp only [there] at found
      split_ifs at found with exists_
      · obtain ⟨upTo,passed⟩ := ih found
        refine ⟨by omega,fun p from_ below => ?_⟩
        rcases Nat.lt_or_eq_of_le from_ with behind | rfl
        · exact passed p behind below
        · exact mem_taken.mpr ⟨entry,there,exists_⟩
      · obtain rfl := Option.some.inj found
        exact ⟨le_refl _,fun p from_ below => by omega⟩

theorem occupant_freed (zeroKey : κ) (zero : ν) {entry : PrimitiveEntry κ ν}
    (there : entries[index]? = some entry) :
    occupant (primitive zeroKey zero) (entries.set index { entry with exists_ := false }) =
      Function.update (occupant (primitive zeroKey zero) entries) index none :=
  occupant_clear (primitive zeroKey zero) there

theorem expand_not_exit {table : Table (PrimitiveEntry κ ν)} {memory : Bool}
    (fits : ¬(2 ^ 64 ≤ newCapacity table ∨ memory = false)) :
    expand zeroKey zero hash memory rounds table ≠ some .exit := by
  obtain ⟨fits,given⟩ := not_or.mp fits
  rw [expand_eq _ _ _ _ (by omega) (by simpa using given)]
  simp

/-- The searches for the keys that were moved get to them, also from their homes in the new entries. -/
theorem move_chained (zeroKey : κ) (zero : ν) (distinct : ((existing old).map PrimitiveEntry.key).Nodup)
    (apart : ∀ entry ∈ existing old,∀ other ∈ existing newEntries,other.key ≠ entry.key)
    (chained : Chained newEntries.length (begins hash newEntries.length)
      (occupant (primitive zeroKey zero) newEntries))
    (ran : move hash rounds newEntries old = some moved) :
    Chained newEntries.length (begins hash newEntries.length)
      (occupant (primitive zeroKey zero) moved) := by
  induction old generalizing newEntries with
  | nil =>
    obtain rfl := Option.some.inj ran
    exact chained
  | cons entry rest ih =>
    rw [move] at ran
    split_ifs at ran with exists_
    · have head : existing (entry :: rest) = entry :: existing rest := List.filter_cons_of_pos exists_
      rw [head] at distinct apart
      obtain ⟨fresh,distinct⟩ := List.nodup_cons.mp distinct
      obtain ⟨newI,isHome,ran⟩ := Option.bind_eq_some_iff.mp ran
      obtain ⟨place,found,ran⟩ := Option.bind_eq_some_iff.mp ran
      obtain ⟨other,there,empty⟩ := walk_some found
      obtain ⟨upTo,passed⟩ := walk_passes found
      have below := (List.getElem?_eq_some_iff.mp there).1
      have isHome' : newI = begins hash newEntries.length entry.key := by
        unfold home at isHome
        split_ifs at isHome
        exact (Option.some.inj isHome).symm
      rw [isHome'] at upTo passed
      -- The walk does not turn back, so the place is as far behind the home as it has gone.
      have straight (e : Nat) (near : begins hash newEntries.length entry.key + e ≤ place) :
          position newEntries.length (begins hash newEntries.length entry.key) e =
            begins hash newEntries.length entry.key + e :=
        Nat.mod_eq_of_lt (by omega)
      have reached := straight (place - begins hash newEntries.length entry.key) (by omega)
      rw [Nat.add_sub_of_le upTo] at reached
      have before : Passed newEntries.length (occupant (primitive zeroKey zero) newEntries)
          (begins hash newEntries.length entry.key) entry.key
          (place - begins hash newEntries.length entry.key) := by
        intro e nearer
        obtain ⟨key,isKey,other,member,rfl⟩ := occupant_taken zeroKey zero
          (passed (begins hash newEntries.length entry.key + e) (by omega) (by omega))
        rw [straight e (by omega)]
        exact ⟨other.key,isKey,apart entry (List.mem_cons_self ..) other member⟩
      have filled := chained.fill before (by omega)
        (by rw [reached]; exact (occupant_eq_none there).mpr empty)
      rw [reached] at filled
      have same := existing_set ⟨true,entry.key,entry.value⟩ there empty rfl
      have occupants := occupant_set (primitive zeroKey zero) there ⟨true,entry.key,entry.value⟩
      rw [show (primitive zeroKey zero).occupied (⟨true,entry.key,entry.value⟩ : PrimitiveEntry κ ν) = true
        from rfl,if_pos rfl] at occupants
      have length : (newEntries.set place ⟨true,entry.key,entry.value⟩).length = newEntries.length :=
        List.length_set
      have tail := ih distinct ?_ (by rw [length,occupants]; exact filled) ran
      · rwa [length] at tail
      · intro entry' member other' member'
        rcases List.mem_cons.mp (same.mem_iff.mp member') with rfl | member'
        · intro equal
          exact fresh (List.mem_map.mpr ⟨entry',member,equal.symm⟩)
        · exact apart entry' (List.mem_cons_of_mem _ member) other' member'
    · have head : existing (entry :: rest) = existing rest := List.filter_cons_of_neg exists_
      rw [head] at distinct apart
      exact ih distinct apart chained ran

variable [DecidableEq κ]

theorem getLoop_reaches (zeroKey : κ) (zero : ν) {start : Nat} (k : Nat) {entry : PrimitiveEntry κ ν}
    (passed : Passed entries.length (occupant (primitive zeroKey zero) entries) start key d)
    (there : entries[position entries.length start d]? = some entry) (stop : Stop key entry)
    (upTo : k ≤ d) (enough : d < k + rounds) :
    getLoop entries key rounds (position entries.length start k) =
      some (position entries.length start d) := by
  have nonempty : 0 < entries.length := Nat.zero_lt_of_lt (List.getElem?_eq_some_iff.mp there).1
  induction rounds generalizing k with
  | zero => omega
  | succ rounds ih =>
    rw [getLoop]
    rcases Nat.lt_or_eq_of_le upTo with before | rfl
    · obtain ⟨other,isOther,apart⟩ := passed k before
      have bound := position_lt nonempty start k
      have there' := List.getElem?_eq_getElem bound
      obtain ⟨occupied,isKey⟩ := (occupant_eq_some there').mp isOther
      have occupied' : entries[position entries.length start k].exists_ = true := occupied
      rw [there']
      simp only [occupied',if_true]
      rw [if_neg (fun same => apart (isKey ▸ same.symm)),Hashtable.next_position nonempty]
      exact ih (k + 1) before (by omega)
    · rw [there]
      rcases stop with empty | same
      · simp [empty]
      · simp [same]

end

/-- What is written through the pointer to the value of an entry. -/
theorem assign_entries {table : Table (PrimitiveEntry κ ν)} {key : κ} {index : Nat} {value : ν}
    (there : table.entries[index]? = some ⟨true,key,value⟩) (written : Option ν) :
    assign written (table,index) =
      ⟨table.length,table.entries.set index ⟨true,key,written.getD value⟩⟩ := by
  obtain ⟨below,isEntry⟩ := List.getElem?_eq_some_iff.mp there
  cases written with
  | none =>
    change table = _
    rw [Option.getD_none,← isEntry,List.set_getElem_self]
  | some new =>
    change Table.mk _ _ = _
    rw [List.modify_eq_set_getElem?,there]
    rfl

/-- The table has the entries and the size of the map, and each is found by the search for its key. -/
structure Represents [DecidableEq κ] (zeroKey : κ) (zero : ν) (hash : κ → BitVec 32)
    (table : Table (PrimitiveEntry κ ν)) (map : Finmap fun _ : κ => ν) : Prop where
  chained : Chained table.capacity (begins hash table.capacity)
    (occupant (primitive zeroKey zero) table.entries)
  lists : Lists (stored (primitive zeroKey zero) table.entries) map
  length : table.length = map.keys.card
  sized : Sized table

section
variable [DecidableEq κ] {zeroKey : κ} {zero : ν} {hash : κ → BitVec 32} {memory : Bool} {rounds : Nat}
  {table table' : Table (PrimitiveEntry κ ν)} {map : Finmap fun _ : κ => ν} {key : κ}

theorem represents_allocate (zeroKey : κ) (zero : ν) (hash : κ → BitVec 32) {capacity : Nat}
    (positive : 0 < capacity) (bounded : capacity < 2 ^ 64) :
    Represents zeroKey zero hash (allocate zeroKey zero capacity) ∅ where
  chained := by
    intro key d _ is
    obtain ⟨⟨_,value⟩,pair,_⟩ := Option.map_eq_some_iff.mp (occupant_eq _ _ _ ▸ is)
    have member := (stored_existing zeroKey zero).mp ⟨_,pair⟩
    rw [allocate,existing_replicate] at member
    cases member
  lists := by
    intro key value
    rw [stored_existing zeroKey zero,allocate,existing_replicate]
    simp
  length := by simp [allocate]
  sized := sized_allocate zeroKey zero positive bounded

theorem Represents.mem_iff (represents : Represents zeroKey zero hash table map) :
    key ∈ map ↔ ∃ index < table.capacity,occupant (primitive zeroKey zero) table.entries index = some key := by
  rw [represents.lists.mem_iff]
  constructor
  · rintro ⟨index,value,is⟩
    exact ⟨index,stored_lt is,by rw [occupant_eq,is]; rfl⟩
  · rintro ⟨index,_,is⟩
    rw [occupant_eq] at is
    obtain ⟨⟨_,value⟩,pair,rfl⟩ := Option.map_eq_some_iff.mp is
    exact ⟨index,value,pair⟩

theorem Represents.holds (represents : Represents zeroKey zero hash table map) :
    Holds table.entries key ↔ key ∈ map := by
  rw [represents.lists.mem_iff,holds_iff]
  constructor
  · rintro ⟨⟨exists_,_,value⟩,member,rfl⟩
    obtain rfl : exists_ = true := (List.mem_filter.mp member).2
    obtain ⟨index,is⟩ := (stored_existing zeroKey zero).mpr member
    exact ⟨index,value,is⟩
  · rintro ⟨index,value,is⟩
    exact ⟨_,(stored_existing zeroKey zero).mp ⟨index,is⟩,rfl⟩

/-- Where the search for a key stops, if it does. -/
theorem Represents.stops (represents : Represents zeroKey zero hash table map)
    (probes : Probes table.capacity table.length table.entries key) :
    ∃ d entry,d < table.capacity ∧
      Passed table.capacity (occupant (primitive zeroKey zero) table.entries)
        (begins hash table.capacity key) key d ∧
      table.entries[position table.capacity (begins hash table.capacity key) d]? = some entry ∧
      (occupant (primitive zeroKey zero) table.entries
          (position table.capacity (begins hash table.capacity key) d) = none ∨
        occupant (primitive zeroKey zero) table.entries
          (position table.capacity (begins hash table.capacity key) d) = some key) := by
  have bound (d : Nat) := position_lt represents.sized.positive (begins hash table.capacity key) d
  rcases probes.2 with room | holds
  · have loaded : load (primitive zeroKey zero) table.entries < table.entries.length := by
      rw [load_existing,represents.sized.loaded]
      exact room
    obtain ⟨d,below,passed,stop⟩ := exists_stop (exists_empty loaded) (begins hash table.capacity key) key
    exact ⟨d,_,below,passed,List.getElem?_eq_getElem (bound d),stop⟩
  · obtain ⟨slot,below,is⟩ := represents.mem_iff.mp (represents.holds.mp holds)
    obtain ⟨d,near,rfl⟩ := exists_position (begins hash table.capacity key) below
    exact ⟨d,_,near,represents.chained key d near is,List.getElem?_eq_getElem (bound d),Or.inr is⟩

/-- An entry whose search ends at it is the only one of its key. -/
theorem Represents.only (represents : Represents zeroKey zero hash table map) {slot : Nat}
    (bound : slot < table.capacity)
    (has : occupant (primitive zeroKey zero) table.entries slot = some key) {index : Nat} {value : ν}
    (is : stored (primitive zeroKey zero) table.entries index = some (key,value)) : index = slot :=
  represents.chained.unique (stored_lt is) bound (by rw [occupant_eq,is]; rfl) has

/-- The search of `has` and of `remove`. -/
theorem Represents.probe_eq (represents : Represents zeroKey zero hash table map)
    (probes : Probes table.capacity table.length table.entries key) (enough : table.capacity ≤ rounds) :
    ∃ found,probe zeroKey zero hash rounds table key = some found ∧
      (∀ index,found = some index → index < table.capacity ∧
        occupant (primitive zeroKey zero) table.entries index = some key) ∧
      (found = none → key ∉ map) := by
  obtain ⟨d,entry,below,passed,_,stop⟩ := represents.stops probes
  have began : begins hash table.capacity key < table.capacity := home_lt hash probes.1 key
  have reached := find_reaches rounds 0 began below passed stop (Nat.zero_le d)
    (by unfold Table.capacity at *; omega)
  have first : position table.entries.length (begins hash table.capacity key) 0 =
      begins hash table.capacity key := position_zero began
  rw [first] at reached
  refine ⟨_,by rw [probe,home_eq probes.1]; exact reached,fun index is => ?_,fun nowhere member => ?_⟩
  · split_ifs at is with isKey
    obtain rfl := Option.some.inj is
    exact ⟨position_lt represents.sized.positive _ d,isKey⟩
  · split_ifs at nowhere with isKey
    obtain ⟨slot,bound,is⟩ := represents.mem_iff.mp member
    exact represents.chained.absent passed (stop.resolve_right isKey) slot bound is

theorem Represents.has_eq (represents : Represents zeroKey zero hash table map)
    (probes : Probes table.capacity table.length table.entries key) (enough : table.capacity ≤ rounds) :
    has zeroKey zero hash rounds table key = some (decide (key ∈ map)) := by
  obtain ⟨found,probed,inside,absent⟩ := represents.probe_eq probes enough
  rw [has,probed,Option.map_some]
  cases found with
  | none => rw [decide_eq_false (absent rfl)]; rfl
  | some index => rw [decide_eq_true (represents.mem_iff.mpr ⟨index,inside index rfl⟩)]; rfl

theorem Represents.shows (represents : Represents zeroKey zero hash table map) :
    Shows zeroKey zero hash table map := by
  refine ⟨represents.length,fun key rounds found ran => ?_⟩
  obtain ⟨result,probed,rfl⟩ := Option.map_eq_some_iff.mp ran
  have more := probe_mono probed (Nat.le_max_left rounds table.capacity)
  have probes := (represents.sized.probe_isSome zeroKey zero hash key (Nat.le_max_right rounds _)).mp
    (more ▸ rfl)
  have decided := represents.has_eq probes (Nat.le_max_right rounds table.capacity)
  rw [has,more,Option.map_some] at decided
  exact Option.some.inj decided

/-- The entries in a larger table. -/
theorem Represents.expand_represents (represents : Represents zeroKey zero hash table map)
    (ran : expand zeroKey zero hash memory rounds table = some (.returns table')) :
    Represents zeroKey zero hash table' map := by
  obtain ⟨fits,length,capacity,perm⟩ := represents.sized.expand_returns ran
  have sized := (represents.sized.expand_sized ran).1
  refine ⟨?_,?_,length.trans represents.length,sized⟩
  · by_cases none_ : 2 ^ 64 ≤ newCapacity table ∨ memory = false
    · rw [represents.sized.expand_exit none_] at ran
      exact nomatch ran
    obtain ⟨_,given⟩ := not_or.mp none_
    rw [expand_eq _ _ _ _ fits (by simpa using given)] at ran
    obtain ⟨moved,isMoved,same⟩ := Option.map_eq_some_iff.mp ran
    obtain rfl := Outcome.returns.inj same
    have chained := move_chained zeroKey zero ?_ ?_ ?_ isMoved
    · rw [List.length_replicate] at chained
      rw [capacity]
      exact chained
    · unfold existing
      rw [List.Nodup,List.pairwise_map,List.pairwise_filter]
      apply List.pairwise_iff_getElem.mpr
      intro i j belowI belowJ before exists_ exists_' same
      have first : occupant (primitive zeroKey zero) table.entries i = some table.entries[j].key :=
        (occupant_eq_some (List.getElem?_eq_getElem belowI)).mpr ⟨exists_,same⟩
      have second : occupant (primitive zeroKey zero) table.entries j = some table.entries[j].key :=
        (occupant_eq_some (List.getElem?_eq_getElem belowJ)).mpr ⟨exists_',rfl⟩
      have := represents.chained.unique belowI belowJ first second
      omega
    · rw [existing_replicate]
      exact fun _ _ _ member => nomatch member
    · intro key d _ is
      obtain ⟨⟨_,value⟩,pair,_⟩ := Option.map_eq_some_iff.mp (occupant_eq _ _ _ ▸ is)
      have member := (stored_existing zeroKey zero).mp ⟨_,pair⟩
      rw [existing_replicate] at member
      exact nomatch member
  · intro key value
    rw [stored_existing zeroKey zero,perm.mem_iff,← stored_existing zeroKey zero]
    exact represents.lists key value

/-- What `get` leaves, when there is room, and what its pointer is to. -/
theorem Represents.getIn_represents (represents : Represents zeroKey zero hash table map)
    (probes : Probes table.capacity table.length table.entries key) (enough : table.capacity ≤ rounds)
    (room : table.length + 1 < table.capacity ∨ table.capacity = 1) :
    ∃ table' index value,getIn hash rounds table key = some (table',index) ∧
      table'.entries[index]? = some ⟨true,key,value⟩ ∧
      (∀ there,map.lookup key = some there → value = there) ∧
      ∀ written,Represents zeroKey zero hash (assign written (table',index))
        (map.insert key (written.getD value)) := by
  obtain ⟨d,entry,below,passed,there,stop⟩ := represents.stops probes
  have began : begins hash table.capacity key < table.capacity := home_lt hash probes.1 key
  have first : position table.entries.length (begins hash table.capacity key) 0 =
      begins hash table.capacity key := position_zero began
  have bound := position_lt represents.sized.positive (begins hash table.capacity key) d
  have stop' : Stop key entry := by
    rcases stop with isEmpty | is
    · exact Or.inl ((occupant_eq_none there).mp isEmpty)
    · exact Or.inr ((occupant_eq_some there).mp is).2
  have reached := getLoop_reaches zeroKey zero 0 passed there stop'
    (Nat.zero_le d) (show d < 0 + rounds by omega)
  rw [first] at reached
  generalize isSlot : position table.capacity (begins hash table.capacity key) d = slot at *
  have ran : getIn hash rounds table key = some (if entry.exists_ then (table,slot)
      else (⟨(table.length + 1) % 2 ^ 64,table.entries.set slot { entry with exists_ := true,key }⟩,
        slot)) := by
    rw [getIn,home_eq probes.1,Option.bind_eq_bind,Option.bind_some]
    change (getLoop table.entries key rounds (begins hash table.capacity key)).bind _ = _
    rw [show getLoop table.entries key rounds (begins hash table.capacity key) = some slot from
      reached.trans (congrArg some isSlot),Option.bind_some,there]
    rfl
  have here (pair : κ × ν) (is : stored (primitive zeroKey zero) table.entries slot = some pair) :
      pair.1 = key := by
    rcases stop with isEmpty | has
    · rw [occupant_eq,is] at isEmpty
      exact absurd isEmpty (Option.some_ne_none _)
    · rw [occupant_eq,is] at has
      exact Option.some.inj has
  have occupants (value : ν) := occupant_set (primitive zeroKey zero) there ⟨true,key,value⟩
  have pairs (value : ν) := stored_set (primitive zeroKey zero) there ⟨true,key,value⟩
  have length (value : ν) : (table.entries.set slot ⟨true,key,value⟩).length = table.entries.length :=
    List.length_set
  rcases stop with isEmpty | is
  · have empty := (occupant_eq_none there).mp isEmpty
    have empty' : entry.exists_ = false := empty
    have absent := represents.chained.absent passed (isSlot ▸ isEmpty)
    have fresh : key ∉ map := by
      intro member
      obtain ⟨index,below',is⟩ := represents.mem_iff.mp member
      exact absent index below' is
    rw [empty',if_neg Bool.false_ne_true] at ran
    have slotIs : (table.entries.set slot ⟨true,key,entry.value⟩)[slot]? = some ⟨true,key,entry.value⟩ :=
      List.getElem?_set_self bound
    refine ⟨_,slot,entry.value,ran,slotIs,fun value found => ?_,fun written => ?_⟩
    · exact absurd (Finmap.mem_of_lookup_eq_some found) fresh
    · have sized := (represents.sized.getIn_sized room ran).assign_sized written
      rw [assign_entries slotIs written] at sized ⊢
      rw [List.set_set] at sized ⊢
      refine ⟨?_,?_,?_,sized⟩
      · have filled := represents.chained.fill passed below (isSlot ▸ isEmpty)
        rw [isSlot] at filled
        change Chained (List.length _) (begins hash (List.length _)) _
        rw [occupants,length]
        exact filled
      · change Lists (stored (primitive zeroKey zero) (table.entries.set slot _)) _
        rw [pairs]
        exact represents.lists.insert _ here fun index value is =>
          absurd (by rw [occupant_eq,is]; rfl) (absent index (stored_lt is))
      · change (table.length + 1) % 2 ^ 64 = _
        rw [represents.sized.length_succ,keys_insert,represents.length,
          Finset.card_insert_of_notMem fun member => fresh (Finmap.mem_keys.mp member)]
  · obtain ⟨exists_,isKey⟩ := (occupant_eq_some there).mp is
    have exists' : entry.exists_ = true := exists_
    have present := represents.mem_iff.mpr ⟨slot,bound,is⟩
    rw [exists',if_pos rfl] at ran
    have slotIs : table.entries[slot]? = some ⟨true,key,entry.value⟩ := by
      rw [there,← exists',← isKey]
      rfl
    have pairIs : stored (primitive zeroKey zero) table.entries slot = some (key,entry.value) := by
      rw [stored,slotIs]
      rfl
    refine ⟨table,slot,entry.value,ran,slotIs,fun value found => ?_,fun written => ?_⟩
    · have lookup := (represents.lists key entry.value).mpr ⟨slot,pairIs⟩
      exact Option.some.inj (lookup.symm.trans found)
    · have sized := Sized.assign_sized (show Sized (table,slot).1 from represents.sized) written
      rw [assign_entries slotIs written] at sized ⊢
      refine ⟨?_,?_,?_,sized⟩
      · change Chained (List.length _) (begins hash (List.length _)) _
        rw [occupants,length]
        change Chained _ _ (Function.update _ slot (some key))
        rw [← is,Function.update_eq_self]
        exact represents.chained
      · change Lists (stored (primitive zeroKey zero) (table.entries.set slot _)) _
        rw [pairs]
        exact represents.lists.insert _ here fun index value isPair => represents.only bound is isPair
      · change table.length = _
        rw [keys_insert,Finset.insert_eq_of_mem (Finmap.mem_keys.mpr present),represents.length]

/-- What `get` does where its loops end. -/
theorem Represents.get_represents (represents : Represents zeroKey zero hash table map)
    {written : Option ν} (fits : Fits hash table (.get key written memory))
    (enough : newCapacity table ≤ rounds) :
    get zeroKey zero hash memory rounds table key = some .exit ∨
      ∃ table' index value,get zeroKey zero hash memory rounds table key = some (.returns (table',index)) ∧
        table'.entries[index]? = some ⟨true,key,value⟩ ∧
        (∀ there,map.lookup key = some there → value = there) ∧
        Represents zeroKey zero hash (assign written (table',index))
          (map.insert key (written.getD value)) := by
  have sized := represents.sized
  have within : table.capacity ≤ newCapacity table := Nat.le_add_right _ _
  unfold Fits at fits
  unfold get
  rw [sized.length_succ]
  split_ifs at fits ⊢ with grows
  · by_cases none_ : 2 ^ 64 ≤ newCapacity table ∨ memory = false
    · left
      rw [sized.expand_exit none_]
      rfl
    right
    obtain ⟨_,probes⟩ := ((or_assoc.mpr fits).resolve_left none_)
    obtain ⟨outcome,expanded⟩ := Option.isSome_iff_exists.mp
      (show (expand zeroKey zero hash memory rounds table).isSome = true by
        obtain ⟨fits',given⟩ := not_or.mp none_
        rw [expand_eq _ _ _ _ (by omega) (by simpa using given),Option.isSome_map,
          move_fresh _ _ probes.1 enough]
        exact ((or_assoc.mpr fits).resolve_left none_).1)
    cases outcome with
    | exit => exact absurd expanded (expand_not_exit none_)
    | returns larger =>
      obtain ⟨_,length,capacity,perm⟩ := sized.expand_returns expanded
      obtain ⟨_,room⟩ := sized.expand_sized expanded
      have larger' := represents.expand_represents expanded
      have probes' : Probes larger.capacity larger.length larger.entries key := by
        rw [capacity,length,Probes,Holds.congr perm]
        exact probes
      obtain ⟨table',index,value,ran,there,same,after⟩ :=
        larger'.getIn_represents probes' (capacity.trans_le enough) room
      refine ⟨table',index,value,?_,there,same,after written⟩
      rw [expanded,Option.bind_eq_bind,Option.bind_some]
      change (getIn hash rounds larger key).bind _ = _
      rw [ran]
      rfl
  · right
    obtain ⟨table',index,value,ran,there,same,after⟩ :=
      represents.getIn_represents fits (within.trans enough) (by omega)
    exact ⟨table',index,value,by rw [ran]; rfl,there,same,after written⟩

/-- What `remove` does at the entry of a key, and if there is none. -/
theorem Represents.remove_eq (represents : Represents zeroKey zero hash table map)
    (probes : Probes table.capacity table.length table.entries key) (enough : table.capacity ≤ rounds) :
    (key ∉ map ∧ remove zeroKey zero hash rounds table key = some table) ∨
      ∃ index entry,index < table.capacity ∧ table.entries[index]? = some entry ∧
        occupant (primitive zeroKey zero) table.entries index = some key ∧
        remove zeroKey zero hash rounds table key = some ⟨(table.length + (2 ^ 64 - 1)) % 2 ^ 64,
          table.entries.set index { entry with exists_ := false }⟩ := by
  obtain ⟨found,probed,inside,absent⟩ := represents.probe_eq probes enough
  cases found with
  | none =>
    refine Or.inl ⟨absent rfl,?_⟩
    rw [remove,probed]
    rfl
  | some index =>
    obtain ⟨below,is⟩ := inside index rfl
    have there := List.getElem?_eq_getElem below
    refine Or.inr ⟨index,_,below,there,is,?_⟩
    rw [remove,probed]
    simp only [Option.bind_eq_bind,Option.bind_some,there,Option.pure_def]

theorem Represents.remove_represents (represents : Represents zeroKey zero hash table map)
    (probes : Probes table.capacity table.length table.entries key)
    (kept : Kept zeroKey zero hash table (.remove key)) (enough : table.capacity ≤ rounds)
    (ran : remove zeroKey zero hash rounds table key = some table') :
    Represents zeroKey zero hash table' (map.erase key) := by
  have sized := represents.sized.remove_sized ran
  rcases represents.remove_eq probes enough with ⟨absent,ran'⟩ | ⟨index,entry,below,there,is,ran'⟩
  · obtain rfl := Option.some.inj (ran.symm.trans ran')
    rw [erase_absent absent]
    exact represents
  · obtain rfl := Option.some.inj (ran.symm.trans ran')
    refine ⟨?_,?_,?_,sized⟩
    · change Chained (List.length _) (begins hash (List.length _)) _
      rw [List.length_set,occupant_freed zeroKey zero there]
      exact (represents.chained.clear_iff index).mpr (kept index below is)
    · change Lists (stored _ (table.entries.set index _)) (map.erase key)
      rw [stored_set (primitive zeroKey zero) there,if_neg (by simp [primitive])]
      refine represents.lists.erase (fun pair isPair => ?_)
        fun other value isOther => represents.only below is isOther
      rw [occupant_eq,isPair] at is
      exact Option.some.inj is
    · have member := Finmap.mem_keys.mpr (represents.mem_iff.mpr ⟨index,below,is⟩)
      have positive : 0 < map.keys.card := Finset.card_pos.mpr ⟨key,member⟩
      have length := represents.length
      have bounded := represents.sized.bounded
      have le := represents.sized.length_le
      change (table.length + (2 ^ 64 - 1)) % 2 ^ 64 = _
      rw [Finmap.keys_erase,Finset.card_erase_of_mem member]
      omega

theorem Represents.run_represents (represents : Represents zeroKey zero hash table map)
    {operation : Operation κ ν} (fits : Fits hash table operation) (enough : newCapacity table ≤ rounds) :
    operation.run zeroKey zero hash rounds table = some .exit ∨
      ∃ table' shown map',operation.run zeroKey zero hash rounds table = some (.returns table') ∧
        operation.answer zeroKey zero hash rounds table = some shown ∧ operation.Meaning map shown map' ∧
        (Kept zeroKey zero hash table operation → Represents zeroKey zero hash table' map') := by
  have within : table.capacity ≤ rounds := (Nat.le_add_right _ _).trans enough
  cases operation with
  | get key written memory =>
    rcases represents.get_represents fits enough with ran | ⟨table',index,value,ran,there,same,after⟩
    · left
      rw [Operation.run,ran]
      rfl
    · refine Or.inr ⟨_,_,_,?_,?_,⟨value,rfl,same,rfl⟩,fun _ => after⟩
      · rw [Operation.run,ran]
        rfl
      · rw [Operation.answer,ran]
        change ((table'.entries[index]?).map fun entry => Observation.value entry.value) = _
        rw [there]
        rfl
  | has key =>
    have decided := represents.has_eq fits within
    refine Or.inr ⟨table,.flag (decide (key ∈ map)),map,?_,?_,⟨rfl,rfl⟩,fun _ => represents⟩
    · rw [Operation.run,decided]
      rfl
    · rw [Operation.answer,decided]
      rfl
  | remove key =>
    obtain ⟨table',ran⟩ : ∃ table',remove zeroKey zero hash rounds table key = some table' := by
      rcases represents.remove_eq fits within with ⟨_,ran⟩ | ⟨_,_,_,_,_,ran⟩
      · exact ⟨_,ran⟩
      · exact ⟨_,ran⟩
    refine Or.inr ⟨table',.nothing,map.erase key,?_,rfl,⟨rfl,rfl⟩,fun kept =>
      represents.remove_represents fits kept within ran⟩
    rw [Operation.run,ran]
    rfl

/-- The search for another key ends at an entry that is empty now. -/
theorem Represents.kept_of_shows (represents : Represents zeroKey zero hash table map)
    (probes : Probes table.capacity table.length table.entries key)
    (ran : remove zeroKey zero hash rounds table key = some table') (enough : table.capacity ≤ rounds)
    (shows_ : Shows zeroKey zero hash table' (map.erase key)) :
    Kept zeroKey zero hash table (.remove key) := by
  intro index below is other d bound isOther apart e before same
  rcases represents.remove_eq probes enough with ⟨absent,_⟩ | ⟨index',entry,below',there,is',ran'⟩
  · exact absent (represents.mem_iff.mpr ⟨index,below,is⟩)
  have chained := represents.chained
  obtain rfl := chained.unique below below' is is'
  obtain rfl := Option.some.inj (ran.symm.trans ran')
  have inside := position_lt (Nat.zero_lt_of_lt below) (begins hash table.capacity other) d
  have different : other ≠ key := by
    rintro rfl
    exact apart (chained.unique inside below isOther is)
  have member : other ∈ map := represents.mem_iff.mpr ⟨_,inside,isOther⟩
  have length : (table.entries.set index { entry with exists_ := false }).length = table.capacity :=
    List.length_set
  have occupants := occupant_freed zeroKey zero there
  generalize table.entries.set index { entry with exists_ := false } = entries at *
  -- All entries up to the removed one are passed as before.
  have passed : Passed entries.length (occupant (primitive zeroKey zero) entries)
      (begins hash table.capacity other) other e := by
    rw [length,occupants]
    intro f earlier
    obtain ⟨other',isOther',apart'⟩ := chained other d bound isOther f (by omega)
    refine ⟨other',?_,apart'⟩
    rw [Function.update_of_ne]
    · exact isOther'
    · intro there'
      have := position_injective (by omega) (by omega) (there'.trans same.symm)
      omega
  have ends : occupant (primitive zeroKey zero) entries
      (position entries.length (begins hash table.capacity other) e) = none := by
    rw [length,occupants,same,Function.update_self]
  have began : begins hash table.capacity other < entries.length := length ▸ home_lt hash probes.1 other
  have reached := find_reaches table.capacity 0 began (by omega) passed (Or.inl ends) (Nat.zero_le e)
    (by omega)
  rw [ends,if_neg (by simp),position_zero began] at reached
  have nowhere : has zeroKey zero hash table.capacity
      ⟨(table.length + (2 ^ 64 - 1)) % 2 ^ 64,entries⟩ other = some false := by
    have isHome : home hash entries.length other = some (begins hash table.capacity other) := by
      rw [length]
      exact home_eq probes.1 other
    have probed : probe zeroKey zero hash table.capacity
        ⟨(table.length + (2 ^ 64 - 1)) % 2 ^ 64,entries⟩ other = some none := by
      change (home hash entries.length other).bind _ = _
      rw [isHome,Option.bind_some]
      exact reached
    rw [has,probed]
    rfl
  have decided := shows_.2 other _ _ nowhere
  rw [decide_eq_true (Finmap.mem_erase.mpr ⟨different,member⟩)] at decided
  exact Bool.false_ne_true decided

theorem Refines.shows {operations : List (Operation κ ν)}
    (refines : Refines zeroKey zero hash table map operations) : Shows zeroKey zero hash table map := by
  cases operations with
  | nil => exact refines
  | cons => exact refines.1

/-- A map after an operation is determined by what the operation has shown. -/
theorem Operation.Meaning.unique {operation : Operation κ ν} {shown : Observation ν}
    {map' map'' : Finmap fun _ : κ => ν} (meaning : operation.Meaning map shown map')
    (meaning' : operation.Meaning map shown map'') : map' = map'' := by
  cases operation with
  | get key written memory =>
    obtain ⟨value,isValue,_,rfl⟩ := meaning
    obtain ⟨value',isValue',_,rfl⟩ := meaning'
    rw [Observation.value.inj (isValue.symm.trans isValue')]
  | has key => exact meaning.1.trans meaning'.1.symm
  | remove key => exact meaning.2.trans meaning'.2.symm

/-- A run whose loops end refines the run of the map exactly when no removal cuts another search. -/
theorem Represents.refines_run_iff (represents : Represents zeroKey zero hash table map)
    (operations : List (Operation κ ν))
    (fits : Throughout zeroKey zero hash (Fits hash) table operations) :
    Refines zeroKey zero hash table map operations ↔
      Throughout zeroKey zero hash (Kept zeroKey zero hash) table operations := by
  induction operations generalizing table map with
  | nil => exact ⟨fun _ => trivial,fun _ => represents.shows⟩
  | cons operation rest ih =>
    obtain ⟨fit,fits⟩ := fits
    have reached := represents.run_represents fit (le_refl (newCapacity table))
    constructor
    · rintro ⟨_,rounds,refines⟩
      rcases refines with ended | ⟨table',shown,map',ran,answered,meaning,refines⟩
      · have exits : operation.run zeroKey zero hash (newCapacity table) table = some .exit := by
          rcases reached with exits | ⟨_,_,_,ran,_⟩
          · exact exits
          · exact nomatch run_unique ended ran
        refine ⟨?_,fun rounds' table' ran => nomatch run_unique ended ran⟩
        cases operation with
        | get _ _ _ | has _ => exact trivial
        | remove key =>
          obtain ⟨_,_,same⟩ := Option.map_eq_some_iff.mp exits
          exact nomatch same
      · rcases reached with exits | ⟨table'',shown',map'',ran'',answered',meaning',after⟩
        · exact nomatch run_unique ran exits
        obtain rfl := Outcome.returns.inj (run_unique ran ran'')
        have kept : Kept zeroKey zero hash table operation := by
          cases operation with
          | get _ _ _ | has _ => exact trivial
          | remove key =>
            obtain ⟨_,removed,same⟩ := Option.map_eq_some_iff.mp ran''
            obtain rfl := Outcome.returns.inj same
            obtain ⟨_,rfl⟩ := meaning
            exact represents.kept_of_shows fit removed (Nat.le_add_right _ _) refines.shows
        refine ⟨kept,fun rounds' table'' ran' => ?_⟩
        obtain rfl := Outcome.returns.inj (run_unique ran ran')
        obtain rfl := answer_unique answered answered'
        obtain rfl := meaning.unique meaning'
        exact (ih (after kept) (fits _ _ ran)).mp refines
    · rintro ⟨kept,rest⟩
      refine ⟨represents.shows,newCapacity table,?_⟩
      rcases reached with exits | ⟨table',shown,map',ran,answered,meaning,after⟩
      · exact Or.inl exits
      · exact Or.inr ⟨table',shown,map',ran,answered,meaning,
          (ih (after kept) (fits _ _ ran)).mpr (rest _ _ ran)⟩

/-- A new table whose loops end refines the finite map, whatever is done to it, exactly when no removal
is of a key at whose entry another search goes on. -/
theorem refines_iff_removals_kept {capacity : Nat} (positive : 1 ≤ capacity) (bounded : capacity < 2 ^ 64)
    (operations : List (Operation κ ν))
    (fits : Throughout zeroKey zero hash (Fits hash) (allocate zeroKey zero capacity) operations) :
    Refines zeroKey zero hash (allocate zeroKey zero capacity) ∅ operations ↔
      Throughout zeroKey zero hash (Kept zeroKey zero hash) (allocate zeroKey zero capacity) operations :=
  (represents_allocate zeroKey zero hash positive bounded).refines_run_iff operations fits

end

/-- A key that is written and removed again. -/
def onceKey : List (Operation Nat Nat) := [.get 5 (some 7) true,.remove 5,.has 5]

theorem onceKey_fits :
    Throughout 0 0 (BitVec.ofNat 32) (Fits (BitVec.ofNat 32)) (allocate 0 0 4) onceKey := by
  refine ⟨by decide,fun _ table ran => ?_⟩
  have stored : onceKey[0].run 0 0 (BitVec.ofNat 32) 4 (allocate 0 0 4) =
      some (.returns ⟨1,[⟨false,0,0⟩,⟨true,5,7⟩,⟨false,0,0⟩,⟨false,0,0⟩]⟩) := rfl
  obtain rfl := Outcome.returns.inj (run_unique ran stored)
  refine ⟨by decide,fun _ table ran => ?_⟩
  have removed : onceKey[1].run 0 0 (BitVec.ofNat 32) 4
      ⟨1,[⟨false,0,0⟩,⟨true,5,7⟩,⟨false,0,0⟩,⟨false,0,0⟩]⟩ =
      some (.returns ⟨0,[⟨false,0,0⟩,⟨false,5,7⟩,⟨false,0,0⟩,⟨false,0,0⟩]⟩) := rfl
  obtain rfl := Outcome.returns.inj (run_unique ran removed)
  exact ⟨by decide,fun _ _ _ => trivial⟩

theorem onceKey_refines :
    Refines 0 0 (BitVec.ofNat 32) (allocate 0 0 4) ∅ onceKey ↔
      Throughout 0 0 (BitVec.ofNat 32) (Kept 0 0 (BitVec.ofNat 32)) (allocate 0 0 4) onceKey :=
  refines_iff_removals_kept (by decide) (by decide) onceKey onceKey_fits

end NestingHashtable
end Memoir
