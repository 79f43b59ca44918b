import Memoir.HashtableProbes

/-! The hash tables that hold nested collections. A table that is half full grows by half, and its
entries are put into the new ones without going around their end. -/
namespace Memoir
namespace NestingHashtable
open Hashtable (PrimitiveEntry Table primitive find)

/-- What an operation comes to, if it does not leave its entries or go on forever. -/
inductive Outcome (α : Type)
  /-- The program ends: the capacity overflows or there is no memory. -/
  | exit
  | returns (result : α)

variable {κ ν : Type} [DecidableEq κ] (zeroKey : κ) (zero : ν) (hash : κ → BitVec 32)
  (memory : Bool) (rounds : Nat)

def allocate (capacity : Nat) : Table (PrimitiveEntry κ ν) :=
  ⟨0,List.replicate capacity ⟨false,zeroKey,zero⟩⟩

/-- `hash % (uint32_t)capacity`, which is undefined when the divisor is zero. -/
def home (capacity : Nat) (key : κ) : Option Nat :=
  if capacity % 2 ^ 32 = 0 then none else some ((hash key).toNat % (capacity % 2 ^ 32))

def probe (table : Table (PrimitiveEntry κ ν)) (key : κ) : Option (Option Nat) := do
  let index ← home hash table.capacity key
  find (primitive zeroKey zero) table.entries key index rounds index

def has (table : Table (PrimitiveEntry κ ν)) (key : κ) : Option Bool :=
  (probe zeroKey zero hash rounds table key).map Option.isSome

def remove (table : Table (PrimitiveEntry κ ν)) (key : κ) : Option (Table (PrimitiveEntry κ ν)) := do
  match ← probe zeroKey zero hash rounds table key with
  | some index =>
    let entry ← table.entries[index]?
    return ⟨(table.length + (2 ^ 64 - 1)) % 2 ^ 64,table.entries.set index { entry with exists_ := false }⟩
  | none => return table

/-- The walk to an empty entry, which does not turn back at the end. -/
def walk (entries : List (PrimitiveEntry κ ν)) : Nat → Nat → Option Nat
  | 0,_ => none
  | rounds + 1,newI =>
    match entries[newI]? with
    | none => none
    | some entry => if entry.exists_ then walk entries rounds (newI + 1) else some newI

def move (newEntries : List (PrimitiveEntry κ ν)) :
    List (PrimitiveEntry κ ν) → Option (List (PrimitiveEntry κ ν))
  | [] => some newEntries
  | entry :: rest =>
    if entry.exists_ then do
      let newI ← home hash newEntries.length entry.key
      let newI ← walk newEntries rounds newI
      move (newEntries.set newI ⟨true,entry.key,entry.value⟩) rest
    else move newEntries rest

def expand (table : Table (PrimitiveEntry κ ν)) : Option (Outcome (Table (PrimitiveEntry κ ν))) :=
  let newCapacity := (table.capacity + table.capacity >>> 1) % 2 ^ 64
  if newCapacity < table.capacity then some .exit
  else if memory = false then some .exit
  else (move hash rounds (List.replicate newCapacity ⟨false,zeroKey,zero⟩) table.entries).map
    fun newEntries => .returns ⟨table.length,newEntries⟩

/-- The loop of `get`, which ends at the entry of the key or at an empty one. -/
def getLoop (entries : List (PrimitiveEntry κ ν)) (key : κ) : Nat → Nat → Option Nat
  | 0,_ => none
  | rounds + 1,index =>
    match entries[index]? with
    | none => none
    | some entry =>
      if entry.exists_ then
        if key = entry.key then some index
        else getLoop entries key rounds (if entries.length ≤ index + 1 then 0 else index + 1)
      else some index

/-- `get` when there is room, with the index of the entry whose value is pointed to. A new entry has
the value that is still there. -/
def getIn (table : Table (PrimitiveEntry κ ν)) (key : κ) : Option (Table (PrimitiveEntry κ ν) × Nat) := do
  let index ← home hash table.capacity key
  let index ← getLoop table.entries key rounds index
  let entry ← table.entries[index]?
  return if entry.exists_ then (table,index)
    else (⟨(table.length + 1) % 2 ^ 64,table.entries.set index { entry with exists_ := true,key }⟩,index)

def get (table : Table (PrimitiveEntry κ ν)) (key : κ) :
    Option (Outcome (Table (PrimitiveEntry κ ν) × Nat)) :=
  if table.capacity / 2 < (table.length + 1) % 2 ^ 64 then do
    match ← expand zeroKey zero hash memory rounds table with
    | .exit => return .exit
    | .returns table => return .returns (← getIn hash rounds table key)
  else (getIn hash rounds table key).map .returns

def assign (written : Option ν) (found : Table (PrimitiveEntry κ ν) × Nat) :
    Table (PrimitiveEntry κ ν) :=
  match written with
  | none => found.1
  | some value => { found.1 with entries := found.1.entries.modify found.2 fun entry => { entry with value } }

inductive Operation (κ ν : Type)
  | get (key : κ) (written : Option ν) (memory : Bool)
  | has (key : κ)
  | remove (key : κ)

def Operation.run (table : Table (PrimitiveEntry κ ν)) :
    Operation κ ν → Option (Outcome (Table (PrimitiveEntry κ ν)))
  | .get key written memory => do
    match ← NestingHashtable.get zeroKey zero hash memory rounds table key with
    | .exit => return .exit
    | .returns found => return .returns (assign written found)
  | .has key => (NestingHashtable.has zeroKey zero hash rounds table key).map fun _ => .returns table
  | .remove key => (NestingHashtable.remove zeroKey zero hash rounds table key).map .returns

end NestingHashtable
end Memoir
