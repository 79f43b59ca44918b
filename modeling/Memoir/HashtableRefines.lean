import Memoir.HashtableProbes

/-! When the hash tables refine finite maps. A removal leaves no mark at its entry, so the probes of
other keys end there. -/
namespace Memoir
namespace Hashtable
open LinearProbing

variable {κ ν ε : Type}

inductive Operation (κ ν : Type)
  | write (key : κ) (value : ν)
  | remove (key : κ)
  | read (key : κ)
  | has (key : κ)
  | size

inductive Observation (ν : Type)
  | nothing
  | value (value : ν)
  | flag (value : Bool)
  | number (value : Nat)

section
variable [DecidableEq κ] (layout : Layout κ ν ε) (hash : κ → Nat)

namespace Operation

/-- What an operation does to a table, and what it shows. There are rounds for each entry of the
table, and of one that is twice as large. -/
def run (table : Table ε) : Operation κ ν → Option (Table ε × Observation ν)
  | write key value =>
    (Hashtable.write layout hash (table.capacity * 2) table key value).map fun table =>
      (table,.nothing)
  | remove key =>
    (Hashtable.remove layout hash (table.capacity * 2) table key).map fun table => (table,.nothing)
  | read key =>
    (Hashtable.read layout hash (table.capacity * 2) table key).map fun value => (table,.value value)
  | has key =>
    (Hashtable.has layout hash (table.capacity * 2) table key).map fun found => (table,.flag found)
  | size => some (table,.number (Hashtable.size table))

def Meaning (map : Finmap fun _ : κ => ν) :
    Operation κ ν → Observation ν → (Finmap fun _ : κ => ν) → Prop
  | write key value,shown,next => shown = .nothing ∧ next = map.insert key value
  | remove key,shown,next => shown = .nothing ∧ next = map.erase key
  | read key,shown,next => next = map ∧ ∃ value, map.lookup key = some value ∧ shown = .value value
  | has key,shown,next => next = map ∧ shown = .flag (decide (key ∈ map))
  | size,shown,next => next = map ∧ shown = .number map.keys.card

def after (present : Finset κ) : Operation κ ν → Finset κ
  | write key _ => insert key present
  | remove key => present.erase key
  | read _ | has _ | size => present

def Defined (present : Finset κ) : Operation κ ν → Prop
  | read key => key ∈ present
  | _ => True

def observes : Operation κ ν → Bool
  | read _ | has _ | size => true
  | _ => false

/-- A write is of a key that marks its entry, to a table whose capacity can be doubled if it has to
be; a remove is of a key at whose entry no probe for another key goes on. -/
def Kept (table : Table ε) : Operation κ ν → Prop
  | write key _ => layout.storable key = true ∧
    (table.length < table.capacity / 2 ∨ table.capacity * 2 < 2 ^ 64)
  | remove key => ∀ index < table.capacity, occupant layout table.entries index = some key →
    ∀ other d, d < table.capacity →
      occupant layout table.entries
        (position table.capacity (home hash table.capacity other) d) = some other →
      position table.capacity (home hash table.capacity other) d ≠ index →
      ∀ e < d, position table.capacity (home hash table.capacity other) e ≠ index
  | _ => True

end Operation

def Along (present : Finset κ) : List (Operation κ ν) → Prop
  | [] => True
  | operation :: operations =>
    operation.Defined present ∧ Along (operation.after present) operations

def KeptAlong (table : Table ε) : List (Operation κ ν) → Prop
  | [] => True
  | operation :: operations => operation.Kept layout hash table ∧
    ∀ table' shown, operation.run layout hash table = some (table',shown) →
      KeptAlong table' operations

def Shows (table : Table ε) (map : Finmap fun _ : κ => ν) : Prop :=
  ∀ operation : Operation κ ν, operation.observes = true → operation.Defined map.keys →
    ∃ shown, operation.run layout hash table = some (table,shown) ∧
      operation.Meaning map shown map

def Refines (table : Table ε) (map : Finmap fun _ : κ => ν) : List (Operation κ ν) → Prop
  | [] => Shows layout hash table map
  | operation :: operations => Shows layout hash table map ∧
    ∃ table' shown map', operation.run layout hash table = some (table',shown) ∧
      operation.Meaning map shown map' ∧ Refines table' map' operations

end

def stored (layout : Layout κ ν ε) (entries : List ε) (index : Nat) : Option (κ × ν) :=
  (entries[index]?).bind fun entry =>
    if layout.occupied entry then some (layout.key entry,layout.value entry) else none

section
variable {layout : Layout κ ν ε} {entries : List ε} {index : Nat} {entry : ε}

theorem occupant_eq (layout : Layout κ ν ε) (entries : List ε) (index : Nat) :
    occupant layout entries index = (stored layout entries index).map Prod.fst := by
  unfold occupant stored
  cases entries[index]? with
  | none => rfl
  | some entry => cases occupied : layout.occupied entry <;> simp [occupied]

theorem stored_set (layout : Layout κ ν ε) (there : entries[index]? = some entry) (entry' : ε) :
    stored layout (entries.set index entry') = Function.update (stored layout entries) index
      (if layout.occupied entry' then some (layout.key entry',layout.value entry') else none) := by
  have below := (List.getElem?_eq_some_iff.mp there).1
  funext slot
  by_cases same : slot = index
  · subst same
    simp [stored,below]
  · rw [Function.update_of_ne same]
    simp [stored,List.getElem?_set_ne (Ne.symm same)]

theorem occupant_set (layout : Layout κ ν ε) (there : entries[index]? = some entry) (entry' : ε) :
    occupant layout (entries.set index entry') = Function.update (occupant layout entries) index
      (if layout.occupied entry' then some (layout.key entry') else none) := by
  funext slot
  rw [occupant_eq,stored_set layout there]
  by_cases same : slot = index
  · subst same
    rw [Function.update_self,Function.update_self]
    split_ifs <;> rfl
  · rw [Function.update_of_ne same,Function.update_of_ne same,occupant_eq]

theorem occupant_clear (layout : Layout κ ν ε) (there : entries[index]? = some entry) :
    occupant layout (entries.set index (layout.clear entry)) =
      Function.update (occupant layout entries) index none := by
  rw [occupant_set layout there,layout.occupied_clear,if_neg (by simp)]

end

section
variable [DecidableEq κ] {pairs : Nat → Option (κ × ν)} {map : Finmap fun _ : κ => ν} {slot : Nat}
  {key : κ}

def Lists (pairs : Nat → Option (κ × ν)) (map : Finmap fun _ : κ => ν) : Prop :=
  ∀ key value, map.lookup key = some value ↔ ∃ index, pairs index = some (key,value)

theorem Lists.mem_iff (lists : Lists pairs map) : key ∈ map ↔ ∃ index value,
    pairs index = some (key,value) := by
  rw [Finmap.mem_iff]
  constructor
  · rintro ⟨value,found⟩
    obtain ⟨index,is⟩ := (lists key value).mp found
    exact ⟨index,value,is⟩
  · rintro ⟨index,value,is⟩
    exact ⟨value,(lists key value).mpr ⟨index,is⟩⟩

/-- A pair is put where its key is, or where there is none if it is nowhere. -/
theorem Lists.insert (lists : Lists pairs map) (value : ν)
    (here : ∀ pair, pairs slot = some pair → pair.1 = key)
    (others : ∀ index value, pairs index = some (key,value) → index = slot) :
    Lists (Function.update pairs slot (some (key,value))) (map.insert key value) := by
  intro key' value'
  by_cases same : key' = key
  · subst same
    rw [Finmap.lookup_insert]
    constructor
    · intro is
      exact ⟨slot,by rw [Function.update_self,Option.some.inj is]⟩
    · rintro ⟨index,is⟩
      by_cases there : index = slot
      · rw [there,Function.update_self] at is
        rw [(Prod.mk.inj (Option.some.inj is)).2]
      · rw [Function.update_of_ne there] at is
        exact absurd (others index value' is) there
  · rw [Finmap.lookup_insert_of_ne _ same,lists]
    constructor
    · rintro ⟨index,is⟩
      have apart : index ≠ slot := by
        rintro rfl
        exact same (here _ is)
      exact ⟨index,by rw [Function.update_of_ne apart,is]⟩
    · rintro ⟨index,is⟩
      have apart : index ≠ slot := by
        rintro rfl
        rw [Function.update_self] at is
        exact same (Prod.mk.inj (Option.some.inj is)).1.symm
      rw [Function.update_of_ne apart] at is
      exact ⟨index,is⟩

theorem Lists.erase (lists : Lists pairs map)
    (here : ∀ pair, pairs slot = some pair → pair.1 = key)
    (others : ∀ index value, pairs index = some (key,value) → index = slot) :
    Lists (Function.update pairs slot none) (map.erase key) := by
  intro key' value'
  by_cases same : key' = key
  · subst same
    rw [Finmap.lookup_erase]
    constructor
    · intro is
      exact absurd is (by simp)
    · rintro ⟨index,is⟩
      have apart : index ≠ slot := by
        rintro rfl
        rw [Function.update_self] at is
        exact absurd is (by simp)
      rw [Function.update_of_ne apart] at is
      exact absurd (others index value' is) apart
  · rw [Finmap.lookup_erase_ne same,lists]
    constructor
    · rintro ⟨index,is⟩
      have apart : index ≠ slot := by
        rintro rfl
        exact same (here _ is)
      exact ⟨index,by rw [Function.update_of_ne apart,is]⟩
    · rintro ⟨index,is⟩
      have apart : index ≠ slot := by
        rintro rfl
        rw [Function.update_self] at is
        exact absurd is (by simp)
      rw [Function.update_of_ne apart] at is
      exact ⟨index,is⟩

end

section
variable {layout : Layout κ ν ε} {hash : κ → Nat} {entries : List ε}

theorem stored_lt {index : Nat} {pair : κ × ν} (is : stored layout entries index = some pair) :
    index < entries.length := by
  by_contra above
  simp [stored,List.getElem?_eq_none (Nat.le_of_not_lt above)] at is

theorem put_stored (layout : Layout κ ν ε) {entry : ε} {key : κ}
    (storable : layout.storable key = true)
    (ofKey : layout.occupied entry = true → layout.key entry = key) (value : ν) :
    layout.occupied (put layout entry key value) = true ∧
      layout.key (put layout entry key value) = key ∧
      layout.value (put layout entry key value) = value := by
  unfold put
  split_ifs with occupied
  · exact ⟨(layout.occupied_overwrite entry value).trans occupied,
      (layout.key_overwrite entry value).trans (ofKey occupied),layout.value_overwrite entry value⟩
  · exact ⟨(layout.occupied_fill entry key value).trans storable,layout.key_fill entry key value,
      layout.value_fill entry key value⟩

variable [DecidableEq κ] {map : Finmap fun _ : κ => ν} {key : κ} {rounds : Nat}

/-- The entries are those of the map, and each is found by the probes of its key. -/
structure Stores (layout : Layout κ ν ε) (hash : κ → Nat) (entries : List ε)
    (map : Finmap fun _ : κ => ν) : Prop where
  chained : Chained entries.length (home hash entries.length) (occupant layout entries)
  lists : Lists (stored layout entries) map

theorem Stores.mem_iff (stores : Stores layout hash entries map) :
    key ∈ map ↔ ∃ index < entries.length, occupant layout entries index = some key := by
  rw [stores.lists.mem_iff]
  constructor
  · rintro ⟨index,value,is⟩
    exact ⟨index,stored_lt is,by rw [occupant_eq,is]; rfl⟩
  · rintro ⟨index,_,is⟩
    rw [occupant_eq] at is
    obtain ⟨⟨_,value⟩,pair,rfl⟩ := Option.map_eq_some_iff.mp is
    exact ⟨index,value,pair⟩

theorem stores_empty (layout : Layout κ ν ε) (hash : κ → Nat) (capacity : Nat) :
    Stores layout hash (List.replicate capacity layout.empty) (∅ : Finmap fun _ : κ => ν) := by
  have none (index : Nat) : stored layout (List.replicate capacity layout.empty) index = none := by
    unfold stored
    rw [List.getElem?_replicate]
    split_ifs <;> simp [layout.occupied_empty]
  constructor
  · intro key d _ is
    rw [occupant_eq,none] at is
    exact absurd is (by simp)
  · simp [Lists,none]

/-- An entry whose probes end at it is the only one of its key. -/
theorem Stores.only (stores : Stores layout hash entries map) {slot : Nat}
    (bound : slot < entries.length) (has : occupant layout entries slot = some key) {index : Nat}
    {value : ν} (is : stored layout entries index = some (key,value)) : index = slot :=
  stores.chained.unique (stored_lt is) bound (by rw [occupant_eq,is]; rfl) has

/-- What `set` does to the entries of a map. -/
theorem Stores.set (stores : Stores layout hash entries map) (storable : layout.storable key = true)
    (empty : ∃ slot < entries.length, occupant layout entries slot = none) (value : ν)
    (enough : entries.length ≤ rounds) :
    ∃ entries', setEntries layout hash rounds entries key value =
        some (entries',decide (key ∉ map)) ∧ entries'.length = entries.length ∧
      Stores layout hash entries' (map.insert key value) := by
  obtain ⟨d,entry,below,passed,there,stop⟩ := stops hash empty key
  have nonempty := Nat.zero_lt_of_lt below
  have reached := setLoop_reaches rounds 0 value passed there stop (Nat.zero_le d) (by omega)
  rw [position_zero (home_lt hash nonempty key)] at reached
  have bound := position_lt nonempty (home hash entries.length key) d
  have ofKey : layout.occupied entry = true → layout.key entry = key := by
    intro occupied
    rcases stop with isEmpty | has
    · rw [(occupant_eq_none there).mp isEmpty] at occupied
      exact Bool.noConfusion occupied
    · exact ((occupant_eq_some there).mp has).2
  obtain ⟨occupied,isKey,isValue⟩ := put_stored layout storable ofKey value
  have occupants := occupant_set layout there (put layout entry key value)
  have pairs := stored_set layout there (put layout entry key value)
  rw [occupied,if_pos rfl,isKey] at occupants
  rw [occupied,if_pos rfl,isKey,isValue] at pairs
  have here (pair : κ × ν) (is : stored layout entries
      (position entries.length (home hash entries.length key) d) = some pair) : pair.1 = key := by
    rcases stop with isEmpty | has
    · rw [occupant_eq,is] at isEmpty
      exact absurd isEmpty (by simp)
    · rw [occupant_eq,is] at has
      exact Option.some.inj has
  rcases stop with isEmpty | has
  · have absent := stores.chained.absent passed isEmpty
    have fresh : key ∉ map := by
      intro member
      obtain ⟨slot,bound',is⟩ := stores.mem_iff.mp member
      exact absent slot bound' is
    rw [(occupant_eq_none there).mp isEmpty] at reached
    rw [Bool.not_false,← decide_eq_true fresh] at reached
    refine ⟨_,reached,List.length_set,?_,?_⟩
    · rw [List.length_set,occupants]
      exact stores.chained.fill passed below isEmpty
    · rw [pairs]
      apply stores.lists.insert value here
      intro index value' is
      exact absurd (by rw [occupant_eq,is]; rfl) (absent index (stored_lt is))
  · have present := stores.mem_iff.mpr ⟨_,bound,has⟩
    rw [((occupant_eq_some there).mp has).1] at reached
    rw [Bool.not_true,← decide_eq_false (not_not.mpr present)] at reached
    refine ⟨_,reached,List.length_set,?_,?_⟩
    · rw [List.length_set,occupants,← has,Function.update_eq_self]
      exact stores.chained
    · rw [pairs]
      exact stores.lists.insert value here fun index value' is => stores.only bound has is

/-- Where the probes of a key end. -/
theorem Stores.find (stores : Stores layout hash entries map)
    (empty : ∃ slot < entries.length, occupant layout entries slot = none) (key : κ)
    (enough : entries.length ≤ rounds) :
    ∃ found, Hashtable.find layout entries key (home hash entries.length key) rounds
        (home hash entries.length key) = some found ∧
      (∀ index, found = some index →
        index < entries.length ∧ occupant layout entries index = some key) ∧
      (found = none → key ∉ map) := by
  obtain ⟨d,entry,below,passed,_,stop⟩ := stops hash empty key
  have nonempty := Nat.zero_lt_of_lt below
  have began := home_lt hash nonempty key
  have reached := find_reaches rounds 0 began below passed stop (Nat.zero_le d) (by omega)
  rw [position_zero began] at reached
  refine ⟨_,reached,fun index is => ?_,fun nowhere member => ?_⟩
  · split_ifs at is with isKey
    obtain rfl := Option.some.inj is
    exact ⟨position_lt nonempty _ d,isKey⟩
  · split_ifs at nowhere with isKey
    obtain ⟨slot,bound,is⟩ := stores.mem_iff.mp member
    exact stores.chained.absent passed (stop.resolve_right isKey) slot bound is

/-- The map with the pairs of some entries added. -/
def addAll (layout : Layout κ ν ε) (map : Finmap fun _ : κ => ν) : List ε → Finmap fun _ : κ => ν
  | [] => map
  | entry :: rest =>
    if layout.occupied entry then
      addAll layout (map.insert (layout.key entry) (layout.value entry)) rest
    else addAll layout map rest

theorem Stores.move {old : List ε} (stores : Stores layout hash entries map)
    (enough : entries.length ≤ rounds)
    (room : load layout entries + load layout old < entries.length) :
    ∃ moved, Hashtable.move layout hash rounds entries old = some moved ∧
      Stores layout hash moved (addAll layout map old) := by
  induction old generalizing entries map with
  | nil => exact ⟨entries,rfl,stores⟩
  | cons entry old ih =>
    rw [Hashtable.move,addAll]
    have counted : load layout (entry :: old) =
        load layout old + if layout.occupied entry then 1 else 0 := List.countP_cons
    split_ifs with occupied
    · rw [if_pos occupied] at counted
      have room' : load layout entries < entries.length := by omega
      obtain ⟨entries',isSet,length,stores'⟩ := stores.set (layout.storable_key entry occupied)
        (exists_empty room') (layout.value entry) enough
      obtain ⟨slot,entry',there,same⟩ := setLoop_put isSet
      have more := load_put layout there (layout.key entry) (layout.value entry)
      have atMost : (if layout.occupied entry' = true then 0 else 1) ≤ 1 := by split_ifs <;> omega
      rw [← (Prod.mk.inj same).1] at more
      rw [isSet]
      exact ih stores' (length ▸ enough) (by omega)
    · rw [if_neg occupied] at counted
      exact ih stores enough (by omega)

theorem lookup_addAll {old : List ε} (distinct : old.Pairwise fun entry entry' =>
      layout.occupied entry = true → layout.occupied entry' = true →
        layout.key entry ≠ layout.key entry') (key : κ) (value : ν) :
    (addAll layout map old).lookup key = some value ↔
      (∃ entry ∈ old, layout.occupied entry = true ∧ layout.key entry = key ∧
        layout.value entry = value) ∨
      (∀ entry ∈ old, layout.occupied entry = true → layout.key entry ≠ key) ∧
        map.lookup key = some value := by
  induction old generalizing map with
  | nil => simp [addAll]
  | cons entry old ih =>
    obtain ⟨first,rest⟩ := List.pairwise_cons.mp distinct
    rw [addAll]
    split_ifs with occupied
    · rw [ih rest]
      by_cases isKey : key = layout.key entry
      · subst isKey
        rw [Finmap.lookup_insert]
        constructor
        · rintro (⟨other,member,occupied',isKey,_⟩ | ⟨_,isValue⟩)
          · exact absurd isKey.symm (first other member occupied occupied')
          · exact Or.inl ⟨entry,by simp,occupied,rfl,Option.some.inj isValue⟩
        · rintro (⟨other,member,occupied',isKey,isValue⟩ | ⟨none,_⟩)
          · rcases List.mem_cons.mp member with rfl | member
            · exact Or.inr ⟨fun other member occupied' =>
                (first other member occupied occupied').symm,by rw [isValue]⟩
            · exact absurd isKey.symm (first other member occupied occupied')
          · exact absurd rfl (none entry (by simp) occupied)
      · rw [Finmap.lookup_insert_of_ne _ isKey]
        simp only [List.mem_cons,exists_eq_or_imp,forall_eq_or_imp,occupied,true_and,true_implies,
          Ne.symm isKey,false_and,false_or,ne_eq,not_false_eq_true]
    · rw [ih rest]
      simp [occupied]

/-- The map is rebuilt from its entries. -/
theorem Stores.addAll (stores : Stores layout hash entries map) :
    addAll layout (∅ : Finmap fun _ : κ => ν) entries = map := by
  have distinct : entries.Pairwise fun entry entry' => layout.occupied entry = true →
      layout.occupied entry' = true → layout.key entry ≠ layout.key entry' := by
    apply List.pairwise_iff_getElem.mpr
    intro i j belowI belowJ before occupied occupied' same
    have first := (occupant_eq_some (List.getElem?_eq_getElem belowI)).mpr ⟨occupied,same⟩
    have second := (occupant_eq_some (List.getElem?_eq_getElem belowJ)).mpr ⟨occupied',rfl⟩
    have := stores.chained.unique belowI belowJ first second
    omega
  apply Finmap.ext_lookup
  intro key
  apply Option.ext
  intro value
  rw [lookup_addAll distinct,stores.lists]
  simp only [Finmap.lookup_empty,reduceCtorEq,and_false,or_false]
  constructor
  · rintro ⟨entry,member,occupied,rfl,rfl⟩
    obtain ⟨index,below,rfl⟩ := List.getElem_of_mem member
    exact ⟨index,by simp [stored,below,occupied]⟩
  · rintro ⟨index,is⟩
    have below := stored_lt is
    simp only [stored,List.getElem?_eq_getElem below,Option.bind_some] at is
    split_ifs at is with occupied
    obtain ⟨isKey,isValue⟩ := Prod.mk.inj (Option.some.inj is)
    exact ⟨_,List.getElem_mem below,occupied,isKey,isValue⟩

end

/-- The table has the entries and the size of the map, and room. -/
structure Represents [DecidableEq κ] (layout : Layout κ ν ε) (hash : κ → Nat) (table : Table ε)
    (map : Finmap fun _ : κ => ν) : Prop where
  stores : Stores layout hash table.entries map
  length : table.length = map.keys.card
  roomy : Roomy layout table

section
variable [DecidableEq κ] {layout : Layout κ ν ε} {hash : κ → Nat} {table table' : Table ε}
  {map : Finmap fun _ : κ => ν} {rounds : Nat}

theorem represents_allocate (layout : Layout κ ν ε) (hash : κ → Nat) {capacity : Nat}
    (some : 0 < capacity) (bounded : capacity < 2 ^ 64) :
    Represents layout hash (allocate layout capacity) (∅ : Finmap fun _ : κ => ν) where
  stores := stores_empty layout hash capacity
  length := by simp [allocate]
  roomy := roomy_allocate layout some bounded

theorem keys_insert (map : Finmap fun _ : κ => ν) (key : κ) (value : ν) :
    (map.insert key value).keys = insert key map.keys := by
  ext key'
  rw [Finmap.mem_keys,Finmap.mem_insert,Finset.mem_insert,Finmap.mem_keys]

/-- A table with room for one more, and the entries of a map, takes a pair. -/
theorem set_represents (stores : Stores layout hash table.entries map)
    (length : table.length = map.keys.card)
    (loaded : load layout table.entries ≤ table.length)
    (half : 2 * (table.length + 1) ≤ table.capacity) (bounded : table.capacity < 2 ^ 64) {key : κ}
    (storable : layout.storable key = true) (value : ν) (enough : table.capacity ≤ rounds) :
    ∃ table', set layout hash rounds table key value = some table' ∧
      Represents layout hash table' (map.insert key value) := by
  have room : load layout table.entries < table.entries.length := by
    unfold Table.capacity at half
    omega
  obtain ⟨entries',isSet,_,stores'⟩ := stores.set storable (exists_empty room) value enough
  have ran : set layout hash rounds table key value =
      some ⟨if decide (key ∉ map) = true then (table.length + 1) % 2 ^ 64 else table.length,
        entries'⟩ := by
    rw [set,isSet]
    rfl
  refine ⟨_,ran,stores',?_,set_roomy loaded half bounded ran⟩
  have wraps : (table.length + 1) % 2 ^ 64 = table.length + 1 := Nat.mod_eq_of_lt (by omega)
  change (if decide (key ∉ map) = true then (table.length + 1) % 2 ^ 64 else table.length) = _
  rw [keys_insert]
  by_cases present : key ∈ map
  · rw [if_neg (by simpa using present),length,
      Finset.insert_eq_of_mem (Finmap.mem_keys.mpr present)]
  · rw [if_pos (by simpa using present),wraps,length,
      Finset.card_insert_of_notMem (fun member => present (Finmap.mem_keys.mp member))]

theorem expand_stores (stores : Stores layout hash table.entries map)
    (half : 2 * load layout table.entries ≤ table.capacity) (some : 0 < table.capacity)
    (doubled : table.capacity * 2 < 2 ^ 64) (enough : table.capacity * 2 ≤ rounds) :
    ∃ larger,expand layout hash rounds table = Option.some larger ∧
      larger.capacity = table.capacity * 2 ∧ larger.length = table.length ∧
      2 * load layout larger.entries ≤ table.capacity ∧ Stores layout hash larger.entries map := by
  have nothing : load layout (List.replicate (table.capacity * 2) layout.empty) = 0 := by
    simp [load,List.countP_replicate,layout.occupied_empty]
  have size : (List.replicate (table.capacity * 2) layout.empty).length = table.capacity * 2 :=
    List.length_replicate
  have room : load layout (List.replicate (table.capacity * 2) layout.empty) +
      load layout table.entries < (List.replicate (table.capacity * 2) layout.empty).length := by
    rw [nothing,size]
    omega
  obtain ⟨moved,isMoved,stores'⟩ :=
    (stores_empty layout hash (table.capacity * 2)).move (size.trans_le enough) room
  rw [stores.addAll] at stores'
  obtain ⟨length,loaded⟩ := move_load hash isMoved
  rw [nothing] at loaded
  refine ⟨⟨table.length,moved⟩,?_,length.trans size,rfl,?_,stores'⟩
  · unfold expand
    simp only [Nat.mod_eq_of_lt doubled]
    rw [if_neg (by omega),isMoved]
    rfl
  · change 2 * load layout moved ≤ _
    omega

theorem expand_represents (represents : Represents layout hash table map)
    (doubled : table.capacity * 2 < 2 ^ 64) (enough : table.capacity * 2 ≤ rounds) :
    ∃ larger, expand layout hash rounds table = some larger ∧
      Stores layout hash larger.entries map := by
  have loaded := represents.roomy.loaded
  have half := represents.roomy.half
  have some := represents.roomy.some
  obtain ⟨larger,expanded,_,_,_,stores⟩ :=
    expand_stores represents.stores (by omega) (by omega) doubled enough
  exact ⟨larger,expanded,stores⟩

theorem write_represents (represents : Represents layout hash table map) {key : κ} (value : ν)
    (storable : layout.storable key = true)
    (doubled : table.length < table.capacity / 2 ∨ table.capacity * 2 < 2 ^ 64)
    (enough : table.capacity * 2 ≤ rounds) :
    ∃ table', write layout hash rounds table key value = some table' ∧
      Represents layout hash table' (map.insert key value) := by
  have roomy := represents.roomy
  have half := roomy.half
  have some := roomy.some
  unfold write
  split_ifs with isHalf
  · have doubled := doubled.resolve_left (by omega)
    obtain ⟨larger,expanded,stores⟩ := expand_represents represents doubled enough
    obtain ⟨length,capacity,_,loaded⟩ := expand_roomy roomy expanded
    rw [expanded,Option.bind_eq_bind,Option.bind_some]
    exact set_represents stores (length ▸ represents.length) (length ▸ loaded) (by omega) (by omega)
      storable value (by omega)
  · exact set_represents represents.stores represents.length roomy.loaded (by omega) roomy.bounded
      storable value (by omega)

/-- What `remove` does at the entry of a key. -/
theorem remove_eq (represents : Represents layout hash table map) (key : κ)
    (enough : table.capacity ≤ rounds) :
    (key ∉ map ∧ remove layout hash rounds table key = some table) ∨
      ∃ index entry, index < table.capacity ∧ table.entries[index]? = some entry ∧
        occupant layout table.entries index = some key ∧
        remove layout hash rounds table key = some ⟨(table.length + (2 ^ 64 - 1)) % 2 ^ 64,
          table.entries.set index (layout.clear entry)⟩ := by
  obtain ⟨found,probed,inside,absent⟩ := represents.stores.find represents.roomy.empty key enough
  have probed : probe layout hash rounds table key = some found := probed
  cases found with
  | none =>
    refine Or.inl ⟨absent rfl,?_⟩
    rw [remove,probed]
    rfl
  | some index =>
    obtain ⟨below,is⟩ := inside index rfl
    have there := List.getElem?_eq_getElem below
    refine Or.inr ⟨index,_,below,there,is,?_⟩
    rw [remove,probed]
    simp only [Option.bind_eq_bind,Option.bind_some,there,Option.pure_def]

theorem erase_absent {key : κ} (absent : key ∉ map) : map.erase key = map := by
  apply Finmap.ext_lookup
  intro key'
  by_cases same : key' = key
  · subst same
    rw [Finmap.lookup_erase,Finmap.lookup_eq_none.mpr absent]
  · rw [Finmap.lookup_erase_ne same]

theorem remove_represents (represents : Represents layout hash table map) (key : κ)
    (kept : (Operation.remove key : Operation κ ν).Kept layout hash table) (enough : table.capacity ≤ rounds) :
    ∃ table', remove layout hash rounds table key = some table' ∧
      Represents layout hash table' (map.erase key) := by
  rcases remove_eq represents key enough with ⟨absent,ran⟩ | ⟨index,entry,below,there,is,ran⟩
  · exact ⟨table,ran,by rw [erase_absent absent]; exact represents⟩
  · refine ⟨_,ran,⟨?_,?_⟩,?_,remove_roomy represents.roomy ran⟩
    · rw [List.length_set,occupant_clear layout there]
      exact (represents.stores.chained.clear_iff index).mpr (kept index below is)
    · change Lists (stored layout (table.entries.set index (layout.clear entry))) (map.erase key)
      rw [stored_set layout there,layout.occupied_clear,if_neg (by simp)]
      refine represents.stores.lists.erase (fun pair isPair => ?_)
        fun other value isOther => represents.stores.only below is isOther
      rw [occupant_eq,isPair] at is
      exact Option.some.inj is
    · have member := represents.stores.mem_iff.mpr ⟨index,below,is⟩
      have card := Finset.card_erase_of_mem (Finmap.mem_keys.mpr member)
      have some : 0 < map.keys.card := Finset.card_pos.mpr ⟨key,Finmap.mem_keys.mpr member⟩
      have length := represents.length
      have half := represents.roomy.half
      have bounded := represents.roomy.bounded
      change (table.length + (2 ^ 64 - 1)) % 2 ^ 64 = _
      rw [Finmap.keys_erase,card]
      omega

/-- What an operation that only observes shows. -/
theorem represents_shows (represents : Represents layout hash table map) :
    Shows layout hash table map := by
  intro operation observes defined
  have roomy := represents.roomy
  have find (key : κ) := represents.stores.find roomy.empty key
    (show table.entries.length ≤ table.capacity * 2 by unfold Table.capacity; omega)
  cases operation with
  | write _ _ | remove _ => simp [Operation.observes] at observes
  | read key =>
    obtain ⟨found,probed,inside,absent⟩ := find key
    have probed : probe layout hash (table.capacity * 2) table key = some found := probed
    have member := Finmap.mem_keys.mp defined
    cases found with
    | none => exact absurd member (absent rfl)
    | some index =>
      obtain ⟨below,is⟩ := inside index rfl
      have there := List.getElem?_eq_getElem below
      obtain ⟨occupied,isKey⟩ := (occupant_eq_some there).mp is
      refine ⟨.value (layout.value table.entries[index]),?_,rfl,_,
        (represents.stores.lists _ _).mpr ⟨index,?_⟩,rfl⟩
      · rw [Operation.run,read,probed]
        simp only [Option.bind_eq_bind,Option.bind_some,there,Option.pure_def,Option.map_some]
      · simp [stored,there,occupied,isKey]
  | has key =>
    obtain ⟨found,probed,inside,absent⟩ := find key
    have probed : probe layout hash (table.capacity * 2) table key = some found := probed
    refine ⟨.flag (decide (key ∈ map)),?_,rfl,rfl⟩
    rw [Operation.run,has,probed]
    cases found with
    | none => rw [decide_eq_false (absent rfl)]; rfl
    | some index => rw [decide_eq_true (represents.stores.mem_iff.mpr ⟨index,inside index rfl⟩)]; rfl
  | size => exact ⟨_,rfl,rfl,congrArg Observation.number represents.length⟩

theorem run_kept (represents : Represents layout hash table map) (operation : Operation κ ν)
    (defined : operation.Defined map.keys) (kept : operation.Kept layout hash table) :
    ∃ table' shown map', operation.run layout hash table = some (table',shown) ∧
      operation.Meaning map shown map' ∧ Represents layout hash table' map' := by
  have enough : table.capacity ≤ table.capacity * 2 := by omega
  cases operation with
  | write key value =>
    obtain ⟨table',ran,represents'⟩ :=
      write_represents represents value kept.1 kept.2 (Nat.le_refl _)
    exact ⟨table',.nothing,_,by rw [Operation.run,ran]; rfl,⟨rfl,rfl⟩,represents'⟩
  | remove key =>
    obtain ⟨table',ran,represents'⟩ := remove_represents represents key kept enough
    exact ⟨table',.nothing,_,by rw [Operation.run,ran]; rfl,⟨rfl,rfl⟩,represents'⟩
  | read _ | has _ | size =>
    obtain ⟨shown,ran,meaning⟩ := represents_shows represents _ rfl defined
    exact ⟨table,shown,map,ran,meaning,represents⟩

theorem Meaning.keys {operation : Operation κ ν} {shown : Observation ν}
    {map' : Finmap fun _ : κ => ν} (meaning : operation.Meaning map shown map') :
    map'.keys = operation.after map.keys := by
  cases operation with
  | write key value =>
    obtain ⟨_,rfl⟩ := meaning
    exact keys_insert map key value
  | remove key =>
    obtain ⟨_,rfl⟩ := meaning
    exact Finmap.keys_erase key map
  | read _ | has _ | size =>
    obtain ⟨rfl,_⟩ := meaning
    rfl

theorem Meaning.unique {operation : Operation κ ν} {shown shown' : Observation ν}
    {map' map'' : Finmap fun _ : κ => ν} (meaning : operation.Meaning map shown map')
    (meaning' : operation.Meaning map shown' map'') : map' = map'' := by
  cases operation with
  | write _ _ | remove _ => exact meaning.2.trans meaning'.2.symm
  | read _ | has _ | size => exact meaning.1.trans meaning'.1.symm

/-- What `has` shows is where the probes of the key end. -/
theorem has_of_shows (shows_ : Shows layout hash table map) (key : κ) :
    ∃ found, probe layout hash (table.capacity * 2) table key = some found ∧
      found.isSome = decide (key ∈ map) := by
  obtain ⟨shown,ran,_,rfl⟩ := shows_ (.has key) rfl trivial
  simp only [Operation.run,has,Option.map_map,Option.map_eq_some_iff] at ran
  obtain ⟨found,probed,same⟩ := ran
  exact ⟨found,probed,Observation.flag.inj (Prod.mk.inj same).2⟩

/-- A key without a mark is not found after it has been written. -/
theorem storable_of_shows {key : κ} {value : ν}
    (shows_ : Shows layout hash table' (map.insert key value)) : layout.storable key = true := by
  obtain ⟨found,probed,isSome⟩ := has_of_shows shows_ key
  rw [decide_eq_true (Finmap.mem_insert.mpr (Or.inl rfl))] at isSome
  obtain ⟨index,rfl⟩ := Option.isSome_iff_exists.mp isSome
  obtain ⟨entry,_,occupied,rfl⟩ := find_found probed
  exact layout.storable_key entry occupied

theorem room_of_write {key : κ} {value : ν} (bounded : table.capacity < 2 ^ 64)
    (ran : write layout hash rounds table key value = some table') :
    table.length < table.capacity / 2 ∨ table.capacity * 2 < 2 ^ 64 := by
  unfold write at ran
  split_ifs at ran with isHalf
  · obtain ⟨larger,expanded,_⟩ := Option.bind_eq_some_iff.mp ran
    unfold expand at expanded
    simp only at expanded
    split_ifs at expanded with overflow
    omega
  · omega

theorem probe_empty {key : κ} {d : Nat} (below : d < table.capacity)
    (passed : Passed table.capacity (occupant layout table.entries)
      (home hash table.capacity key) key d)
    (isEmpty : occupant layout table.entries
      (position table.capacity (home hash table.capacity key) d) = none)
    (enough : table.capacity ≤ rounds) : probe layout hash rounds table key = some none := by
  have began := home_lt hash (Nat.zero_lt_of_lt below) key
  have reached := find_reaches rounds 0 began below passed (Or.inl isEmpty) (Nat.zero_le d) (by omega)
  unfold Table.capacity at isEmpty
  rw [position_zero began,isEmpty,if_neg (by simp)] at reached
  exact reached

/-- The probes of another key end at an entry that is empty now. -/
theorem aside_of_shows (represents : Represents layout hash table map) {key : κ}
    (ran : remove layout hash rounds table key = some table') (enough : table.capacity ≤ rounds)
    (shows_ : Shows layout hash table' (map.erase key)) :
    (Operation.remove key : Operation κ ν).Kept layout hash table := by
  intro index below is other d bound isOther apart e before same
  rcases remove_eq represents key enough with ⟨absent,_⟩ | ⟨index',entry,below',there,is',ran'⟩
  · exact absent (represents.stores.mem_iff.mpr ⟨index,below,is⟩)
  have chained := represents.stores.chained
  obtain rfl := chained.unique below below' is is'
  have table'Is := Option.some.inj (ran.symm.trans ran')
  have capacity : table'.capacity = table.capacity := by
    rw [table'Is]
    exact List.length_set
  have occupants : occupant layout table'.entries =
      Function.update (occupant layout table.entries) index none := by
    rw [table'Is]
    exact occupant_clear layout there
  have inside := position_lt (Nat.zero_lt_of_lt below) (home hash table.capacity other) d
  have different : other ≠ key := by
    rintro rfl
    exact apart (chained.unique inside below isOther is)
  have member : other ∈ map := represents.stores.mem_iff.mpr ⟨_,inside,isOther⟩
  -- All entries up to the removed one are passed as before.
  have passed : Passed table'.capacity (occupant layout table'.entries)
      (home hash table'.capacity other) other e := by
    rw [capacity,occupants]
    intro f earlier
    obtain ⟨other',isOther',apart'⟩ := chained other d bound isOther f (by omega)
    refine ⟨other',?_,apart'⟩
    rw [Function.update_of_ne]
    · exact isOther'
    · intro there'
      have := position_injective (by omega) (by omega) (there'.trans same.symm)
      omega
  have ends : occupant layout table'.entries
      (position table'.capacity (home hash table'.capacity other) e) = none := by
    rw [capacity,occupants,same,Function.update_self]
  have nowhere := probe_empty (by omega) passed ends (Nat.le_mul_of_pos_right _ (by decide : 0 < 2))
  obtain ⟨found,probed,isSome⟩ := has_of_shows shows_ other
  rw [decide_eq_true (Finmap.mem_erase.mpr ⟨different,member⟩)] at isSome
  obtain rfl := Option.some.inj (probed.symm.trans nowhere)
  exact Bool.noConfusion isSome

theorem Refines.shows {operations : List (Operation κ ν)}
    (refines : Refines layout hash table map operations) : Shows layout hash table map := by
  cases operations with
  | nil => exact refines
  | cons => exact refines.1

theorem kept_of_shows (represents : Represents layout hash table map) {operation : Operation κ ν}
    {shown : Observation ν} {map' : Finmap fun _ : κ => ν}
    (ran : operation.run layout hash table = some (table',shown))
    (meaning : operation.Meaning map shown map') (shows' : Shows layout hash table' map') :
    operation.Kept layout hash table := by
  cases operation with
  | write key value =>
    obtain ⟨_,rfl⟩ := meaning
    obtain ⟨_,wrote,same⟩ := Option.map_eq_some_iff.mp ran
    obtain ⟨rfl,_⟩ := Prod.mk.inj same
    exact ⟨storable_of_shows shows',room_of_write represents.roomy.bounded wrote⟩
  | remove key =>
    obtain ⟨_,rfl⟩ := meaning
    obtain ⟨_,removed,same⟩ := Option.map_eq_some_iff.mp ran
    obtain ⟨rfl,_⟩ := Prod.mk.inj same
    exact aside_of_shows represents removed (by omega) shows'
  | read _ | has _ | size => exact trivial

/-- A run refines the run of the map exactly when its operations keep to their conditions. -/
theorem refines_iff_kept (represents : Represents layout hash table map)
    (operations : List (Operation κ ν)) (defined : Along map.keys operations) :
    Refines layout hash table map operations ↔ KeptAlong layout hash table operations := by
  induction operations generalizing table map with
  | nil => exact ⟨fun _ => trivial,fun _ => represents_shows represents⟩
  | cons operation operations ih =>
    constructor
    · rintro ⟨_,table',shown,map',ran,meaning,rest⟩
      have kept := kept_of_shows represents ran meaning rest.shows
      refine ⟨kept,fun table'' shown' ran' => ?_⟩
      obtain ⟨rfl,rfl⟩ := Prod.mk.inj (Option.some.inj (ran.symm.trans ran'))
      obtain ⟨table'',shown'',map'',ran'',meaning',represents'⟩ :=
        run_kept represents operation defined.1 kept
      obtain ⟨rfl,rfl⟩ := Prod.mk.inj (Option.some.inj (ran.symm.trans ran''))
      obtain rfl := Meaning.unique meaning meaning'
      apply (ih represents' ?_).mp rest
      rw [Meaning.keys meaning]
      exact defined.2
    · rintro ⟨kept,rest⟩
      obtain ⟨table',shown,map',ran,meaning,represents'⟩ := run_kept represents operation defined.1 kept
      refine ⟨represents_shows represents,table',shown,map',ran,meaning,?_⟩
      apply (ih represents' ?_).mpr (rest table' shown ran)
      rw [Meaning.keys meaning]
      exact defined.2

/-- A new table refines the finite map, whatever is done to it, exactly when every write is of a
key that marks its entry and every remove is of a key at whose entry no other probe goes on. -/
theorem refines_map_iff {capacity : Nat} (some : 0 < capacity) (bounded : capacity < 2 ^ 64)
    (operations : List (Operation κ ν)) (defined : Along ∅ operations) :
    Refines layout hash (allocate layout capacity) (∅ : Finmap fun _ : κ => ν) operations ↔
      KeptAlong layout hash (allocate layout capacity) operations :=
  refines_iff_kept (represents_allocate layout hash some bounded) operations defined

end

/-- Two keys of one entry, of which the second is removed. -/
def apart : List (Operation Nat Nat) := [.write 1 10,.write 5 50,.remove 5,.read 1]

theorem apart_refines :
    Refines (primitive 0 0) id (allocate (primitive 0 0) 4) (∅ : Finmap fun _ : Nat => Nat) apart ↔
      KeptAlong (primitive 0 0) id (allocate (primitive 0 0) 4) apart :=
  refines_map_iff (by decide) (by decide) apart
    (by simp [apart,Along,Operation.Defined,Operation.after])

def chainedKeys : List (Operation Nat Nat) := [.write 1 10,.write 5 50,.remove 1]

/-- The second key is not found any more. -/
theorem chainedKeys_not_refines :
    ¬ Refines (primitive 0 0) id (allocate (primitive 0 0) 4) (∅ : Finmap fun _ : Nat => Nat)
      chainedKeys := by
  intro refines
  have start := represents_allocate (primitive 0 0) id (by decide : 0 < 4) (by decide)
  have kept := (refines_iff_kept start chainedKeys ⟨trivial,trivial,trivial,trivial⟩).mp refines
  obtain ⟨_,kept⟩ := kept
  obtain ⟨_,kept⟩ := kept _ _ rfl
  obtain ⟨removed,_⟩ := kept _ _ rfl
  exact removed 1 (by decide) rfl 5 1 (by decide) rfl (by decide) 0 (by decide) rfl

end Hashtable
end Memoir
