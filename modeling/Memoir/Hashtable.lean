import Mathlib.Data.Finmap
import Memoir.LinearProbing

/-! The flat hash tables of the backend. The instantiations for primitive and for pointer keys differ
in what marks an entry as occupied; their functions are the same otherwise. -/
namespace Memoir
namespace Hashtable

/-- How an entry holds a key and a value. `empty` is an entry of zeros. -/
structure Layout (κ ν ε : Type) where
  empty : ε
  occupied : ε → Bool
  key : ε → κ
  value : ε → ν
  overwrite : ε → ν → ε
  fill : ε → κ → ν → ε
  clear : ε → ε
  /-- The keys that mark their entry as occupied. -/
  storable : κ → Bool
  occupied_empty : occupied empty = false
  occupied_overwrite : ∀ entry value, occupied (overwrite entry value) = occupied entry
  key_overwrite : ∀ entry value, key (overwrite entry value) = key entry
  value_overwrite : ∀ entry v, value (overwrite entry v) = v
  occupied_fill : ∀ entry k v, occupied (fill entry k v) = storable k
  key_fill : ∀ entry k v, key (fill entry k v) = k
  value_fill : ∀ entry k v, value (fill entry k v) = v
  occupied_clear : ∀ entry, occupied (clear entry) = false
  storable_key : ∀ entry, occupied entry = true → storable (key entry) = true

/-- An entry of `INSTANTIATE_PRIMITIVE_HASHTABLE`. -/
structure PrimitiveEntry (κ ν : Type) where
  exists_ : Bool
  key : κ
  value : ν

structure PtrEntry (ν : Type) where
  key : Nat
  value : ν

def primitive {κ ν : Type} (zeroKey : κ) (zero : ν) : Layout κ ν (PrimitiveEntry κ ν) where
  empty := ⟨false,zeroKey,zero⟩
  occupied entry := entry.exists_
  key entry := entry.key
  value entry := entry.value
  overwrite entry value := { entry with value }
  fill _ key value := ⟨true,key,value⟩
  clear entry := { entry with exists_ := false }
  storable _ := true
  occupied_empty := rfl
  occupied_overwrite _ _ := rfl
  key_overwrite _ _ := rfl
  value_overwrite _ _ := rfl
  occupied_fill _ _ _ := rfl
  key_fill _ _ _ := rfl
  value_fill _ _ _ := rfl
  occupied_clear _ := rfl
  storable_key _ _ := rfl

def ptr {ν : Type} (zero : ν) : Layout Nat ν (PtrEntry ν) where
  empty := ⟨0,zero⟩
  occupied entry := entry.key != 0
  key entry := entry.key
  value entry := entry.value
  overwrite entry value := { entry with value }
  fill _ key value := ⟨key,value⟩
  clear entry := { entry with key := 0 }
  storable key := key != 0
  occupied_empty := rfl
  occupied_overwrite _ _ := rfl
  key_overwrite _ _ := rfl
  value_overwrite _ _ := rfl
  occupied_fill _ _ _ := rfl
  key_fill _ _ _ := rfl
  value_fill _ _ _ := rfl
  occupied_clear _ := rfl
  storable_key _ occupied := occupied

structure Table (ε : Type) where
  length : Nat
  entries : List ε

def Table.capacity {ε : Type} (table : Table ε) : Nat := table.entries.length

section
variable {κ ν ε : Type} [DecidableEq κ] (layout : Layout κ ν ε) (hash : κ → Nat)

def allocate (capacity : Nat) : Table ε := ⟨0,List.replicate capacity layout.empty⟩

def home (capacity : Nat) (key : κ) : Nat := hash key &&& (capacity - 1)

/-- The loop of `has`, `read` and `remove`: the entry of a key, if there is one. There is no
result when the rounds run out or an index is beyond the entries. -/
def find (entries : List ε) (key : κ) (beginIndex : Nat) : Nat → Nat → Option (Option Nat)
  | 0,_ => none
  | rounds + 1,index =>
    match entries[index]? with
    | none => none
    | some entry =>
      if layout.occupied entry then
        if key = layout.key entry then some (some index)
        else if index + 1 = beginIndex then some none
        else find entries key beginIndex rounds
          (if entries.length ≤ index + 1 then 0 else index + 1)
      else some none

/-- The loop of `set`, and whether the key is new. -/
def setLoop (entries : List ε) (key : κ) (value : ν) : Nat → Nat → Option (List ε × Bool)
  | 0,_ => none
  | rounds + 1,index =>
    match entries[index]? with
    | none => none
    | some entry =>
      if layout.occupied entry then
        if key = layout.key entry then
          some (entries.set index (layout.overwrite entry value),false)
        else setLoop entries key value rounds (if entries.length ≤ index + 1 then 0 else index + 1)
      else some (entries.set index (layout.fill entry key value),true)

variable (rounds : Nat)

def probe (table : Table ε) (key : κ) : Option (Option Nat) :=
  let index := home hash table.capacity key
  find layout table.entries key index rounds index

def has (table : Table ε) (key : κ) : Option Bool :=
  (probe layout hash rounds table key).map Option.isSome

def setEntries (entries : List ε) (key : κ) (value : ν) : Option (List ε × Bool) :=
  setLoop layout entries key value rounds (home hash entries.length key)

def set (table : Table ε) (key : κ) (value : ν) : Option (Table ε) :=
  (setEntries layout hash rounds table.entries key value).map fun result =>
    ⟨if result.2 then (table.length + 1) % 2 ^ 64 else table.length,result.1⟩

def move (entries : List ε) : List ε → Option (List ε)
  | [] => some entries
  | entry :: rest =>
    if layout.occupied entry then do
      let (entries,_) ← setEntries layout hash rounds entries (layout.key entry) (layout.value entry)
      move entries rest
    else move entries rest

/-- Twice the capacity, unless that overflows. -/
def expand (table : Table ε) : Option (Table ε) :=
  let newCapacity := table.capacity * 2 % 2 ^ 64
  if newCapacity < table.capacity then none
  else (move layout hash rounds (List.replicate newCapacity layout.empty) table.entries).map
    fun entries => ⟨table.length,entries⟩

def write (table : Table ε) (key : κ) (value : ν) : Option (Table ε) :=
  if table.capacity / 2 ≤ table.length then do
    set layout hash rounds (← expand layout hash rounds table) key value
  else set layout hash rounds table key value

/-- A key that is not found reads as zero. -/
def read (table : Table ε) (key : κ) : Option ν := do
  match ← probe layout hash rounds table key with
  | some index => return layout.value (← table.entries[index]?)
  | none => return layout.value layout.empty

def remove (table : Table ε) (key : κ) : Option (Table ε) := do
  match ← probe layout hash rounds table key with
  | some index =>
    let entry ← table.entries[index]?
    return ⟨(table.length + (2 ^ 64 - 1)) % 2 ^ 64,table.entries.set index (layout.clear entry)⟩
  | none => return table

def size (table : Table ε) : Nat := table.length

end

end Hashtable
end Memoir
