import Memoir.PowerOfTwo
import Memoir.RuntimeSequences

/-! The vectors of the backend: a window into a buffer, with the free elements in front of it
and behind it. Sizes and indices are `size_t`. -/
namespace Memoir
namespace VectorBackend
open Memoir.Runtime (sum difference)

structure CType (α : Type) where
  width : Nat
  width_pos : 0 < width
  /-- One value over the first bytes of another. -/
  overlay : Nat → α → α → α
  /-- An element of a new buffer, whatever it is. -/
  unset : α

inductive Fault
  /-- More than `PTRDIFF_MAX` bytes are asked for. -/
  | noMemory
  /-- An access past the end of a buffer, or of a buffer that was freed. -/
  | outOfBuffer
  /-- A `memcpy` of overlapping ranges. -/
  | overlap
  deriving DecidableEq

variable {α : Type} {type : CType α}

/-- The size in bytes of the elements and the three sizes in front of them, as a `size_t`. -/
def CType.bytes (type : CType α) (length : Nat) : Nat := (24 + length * type.width) % 2 ^ 64

/-- The elements and the three sizes in front of them have at most `PTRDIFF_MAX` bytes. -/
def CType.Fits (type : CType α) (length : Nat) : Prop := 24 + length * type.width < 2 ^ 63

instance (type : CType α) (length : Nat) : Decidable (type.Fits length) :=
  inferInstanceAs (Decidable (_ < _))

def CType.room (type : CType α) (length : Nat) : Nat := (type.bytes length - 24) / type.width

theorem CType.fits_room (type : CType α) {length : Nat} (small : type.bytes length < 2 ^ 63) :
    type.Fits (type.room length) := by
  have le := Nat.div_mul_le_self (type.bytes length - 24) type.width
  unfold Fits room
  omega

structure Buffer (type : CType α) where
  elements : List α
  fits : type.Fits elements.length

namespace Buffer

def length (buffer : Buffer type) : Nat := buffer.elements.length

/-- A buffer for a number of elements, and for as many as there are when the size has wrapped around. -/
def malloc (type : CType α) (length : Nat) : Except Fault (Buffer type) :=
  if small : type.bytes length < 2 ^ 63 then
    if type.bytes length < 24 then .error .outOfBuffer
    else .ok ⟨List.replicate (type.room length) type.unset,by simpa using type.fits_room small⟩
  else .error .noMemory

def realloc (buffer : Buffer type) (length : Nat) : Except Fault (Buffer type) :=
  if small : type.bytes length < 2 ^ 63 then
    if type.bytes length < 24 then .error .outOfBuffer
    else
      .ok ⟨(buffer.elements ++ List.replicate (type.room length - buffer.length) type.unset).take
        (type.room length),by
          rw [List.length_take,List.length_append,List.length_replicate,Buffer.length,
            Nat.min_eq_left (by omega)]
          exact type.fits_room small⟩
  else .error .noMemory

def load (buffer : Buffer type) (index : Nat) : Except Fault α :=
  match buffer.elements[index]? with
  | some value => .ok value
  | none => .error .outOfBuffer

def store (buffer : Buffer type) (index : Nat) (value : α) : Except Fault (Buffer type) :=
  if index < buffer.length then
    .ok ⟨buffer.elements.set index value,by rw [List.length_set]; exact buffer.fits⟩
  else .error .outOfBuffer

/-- `memmove` and `memcpy` of `count` elements, the sources as they were before. -/
def copy (buffer : Buffer type) (index : Nat) (source : List α) (start count : Nat) :
    Except Fault (Buffer type) :=
  if count = 0 then .ok buffer
  else if bound : index + count ≤ buffer.length ∧ start + count ≤ source.length then
    .ok ⟨splice buffer.elements index count (slice source start (start + count)),by
      rw [Runtime.splice_length _ _ bound.1,Runtime.slice_length _ bound.2]
      have := bound.1
      have same : buffer.elements.length - count + (start + count - start) = buffer.elements.length := by
        unfold length at this
        omega
      rw [same]
      exact buffer.fits⟩
  else .error .outOfBuffer

def overlays (type : CType α) : Nat → List α → List α → List α
  | bytes,new :: news,old :: olds =>
    type.overlay bytes new old :: overlays type (bytes - type.width) news olds
  | _,_,_ => []

def touched (type : CType α) (bytes : Nat) : Nat := (bytes + type.width - 1) / type.width

def moveBytes (buffer : Buffer type) (index start bytes : Nat) : Except Fault (Buffer type) :=
  buffer.copy index
    (buffer.elements.take start ++ overlays type bytes (buffer.elements.drop start)
      (buffer.elements.drop index)) start (touched type bytes)

end Buffer

structure Vector (type : CType α) where
  front : Nat
  back : Nat
  maxSize : Nat
  storage : Buffer type

inductive Source (type : CType α)
  | itself
  | other (vec2 : Vector type)

def Source.vector (vec : Vector type) : Source type → Vector type
  | .itself => vec
  | .other vec2 => vec2

def nextPow2 (x : Nat) : Nat :=
  let x := x ||| x >>> 1
  let x := x ||| x >>> 2
  let x := x ||| x >>> 4
  let x := x ||| x >>> 8
  let x := x ||| x >>> 16
  let x := x ||| x >>> 32
  sum x 1

def allocate (type : CType α) (n : Nat) : Except Fault (Vector type) := do
  let nextPow2 := nextPow2 (difference n 1)
  let storage ← Buffer.malloc type nextPow2
  let diff := difference nextPow2 n
  return ⟨diff / 2,sum (diff / 2) n,nextPow2,storage⟩

namespace Vector

def size (vec : Vector type) : Nat := difference vec.back vec.front

def remove (vec : Vector type) (first last : Nat) : Except Fault (Vector type) :=
  let currentSize := vec.size
  let removalSize := difference last first
  if last = currentSize then .ok { vec with back := difference vec.back removalSize }
  else if first = 0 then .ok { vec with front := sum vec.front removalSize }
  else
    let removeFront := first
    let removeBack := difference currentSize last
    if removeBack < removeFront then do
      -- The number of elements is taken for a number of bytes.
      let storage ← vec.storage.moveBytes (sum vec.front first)
        (difference vec.back (difference first last)) removeBack
      return { vec with back := difference vec.back (difference last first), storage }
    else do
      let storage ← vec.storage.copy (difference (sum vec.front last) first) vec.storage.elements
        vec.front removeFront
      return { vec with front := sum vec.front (difference last first), storage }

def insertInPlace (vec : Vector type) (start : Nat) (vec2 : Source type) (insertSize : Nat) :
    Except Fault (Vector type) := do
  let startIdx := sum vec.front start
  let storage ← vec.storage.copy (sum startIdx insertSize) vec.storage.elements startIdx
    (difference vec.size start)
  -- The source is read at the front of the vector that is inserted into.
  let storage ← match vec2 with
    | .other vec2 => storage.copy startIdx vec2.storage.elements vec.front insertSize
    | .itself => do
      let copied ← storage.copy startIdx storage.elements vec.front insertSize
      if start < insertSize then .error .overlap else .ok copied
  return { vec with back := sum vec.back insertSize, storage }

/-- The buffer for an insertion at the head, where `start` is `0`. -/
def insertFresh (vec : Vector type) (vec2 : Vector type) (first last newSize : Nat) :
    Except Fault (Vector type) := do
  let sizeAfterInsert := sum vec.size (difference last first)
  let storage ← Buffer.malloc type newSize
  let diff := difference newSize sizeAfterInsert / 2
  let front := sum vec.front diff
  let storage ← storage.copy front vec2.storage.elements (sum vec2.front first) (difference last first)
  let storage ← storage.copy (sum front (difference last first)) vec.storage.elements vec.front vec.size
  return ⟨front,sum front sizeAfterInsert,newSize,storage⟩

def insertRealloc (vec : Vector type) (start : Nat) (vec2 : Source type) (insertSize newSize : Nat) :
    Except Fault (Vector type) := do
  let storage ← vec.storage.realloc newSize
  match vec2 with
  -- The old buffer, which the elements come from, is gone.
  | .itself => .error .outOfBuffer
  | .other _ => insertInPlace { vec with maxSize := newSize, storage } start vec2 insertSize

def insertRange (vec : Vector type) (start : Nat) (vec2 : Source type) (first last : Nat) :
    Except Fault (Vector type) :=
  let insertSize := difference last first
  let sizeAfterInsert := sum vec.size insertSize
  if vec.maxSize < sizeAfterInsert then
    let newSize := nextPow2 sizeAfterInsert
    if 0 < start then vec.insertRealloc start vec2 insertSize newSize
    else vec.insertFresh (vec2.vector vec) first last newSize
  else vec.insertInPlace start vec2 insertSize

def insert (vec : Vector type) (start : Nat) (vec2 : Source type) : Except Fault (Vector type) :=
  vec.insertRange start vec2 0 (vec2.vector vec).size

def insertElementInPlace (vec : Vector type) (start : Nat) (value : α) :
    Except Fault (Vector type) := do
  let startIdx := sum vec.front start
  let storage ← if startIdx < vec.back then
      vec.storage.copy (sum startIdx 1) vec.storage.elements startIdx (difference vec.size start)
    else .ok vec.storage
  let storage ← storage.store startIdx value
  return { vec with back := sum vec.back 1, storage }

/-- The buffer for an element at the head, where `start` is `0`. -/
def insertElementFresh (vec : Vector type) (value : α) (newSize : Nat) :
    Except Fault (Vector type) := do
  let sizeAfterInsert := sum vec.size 1
  let storage ← Buffer.malloc type newSize
  let diff := difference newSize sizeAfterInsert / 2
  let front := sum vec.front diff
  let storage ← storage.store front value
  let storage ← storage.copy (sum front 1) vec.storage.elements vec.front vec.size
  return ⟨front,sum front sizeAfterInsert,newSize,storage⟩

def insertElement (vec : Vector type) (start : Nat) (value : α) : Except Fault (Vector type) := do
  let sizeAfterInsert := sum vec.size 1
  if vec.maxSize < sizeAfterInsert then
    let newSize := vec.maxSize <<< 1 % 2 ^ 64
    if 0 < start then
      let storage ← vec.storage.realloc newSize
      insertElementInPlace { vec with maxSize := newSize, storage } start value
    else vec.insertElementFresh value newSize
  else vec.insertElementInPlace start value

def swapLoop (storage : Buffer type) (first start idx : Nat) : Nat → Except Fault (Buffer type)
  | 0 => .ok storage
  | count + 1 => do
    let tmp ← storage.load (sum start idx)
    let value ← storage.load (sum first idx)
    let storage ← storage.store (sum start idx) value
    let storage ← storage.store (sum first idx) tmp
    swapLoop storage first start (idx + 1) count

def swap (vec : Vector type) (first last start : Nat) : Except Fault (Vector type) := do
  let storage ← swapLoop vec.storage (sum first vec.front) (sum start vec.front) 0
    (difference last first)
  return { vec with storage }

end Vector

abbrev State (type : CType α) := List (Vector type)

inductive Operation (α : Type)
  | allocate (n : Nat)
  | insertElement (vec start : Nat) (value : α)
  | insertRange (vec start vec2 first last : Nat)
  | insert (vec start vec2 : Nat)
  | remove (vec first last : Nat)
  | swap (vec first last start : Nat)

namespace State

def vector (state : State type) (vec : Nat) : Except Fault (Vector type) :=
  match state[vec]? with
  | some vector => .ok vector
  | none => .error .outOfBuffer

def source (state : State type) (vec vec2 : Nat) : Except Fault (Source type) :=
  if vec2 = vec then .ok .itself else do return .other (← state.vector vec2)

def update (state : State type) (vec : Nat)
    (operation : Vector type → Except Fault (Vector type)) : Except Fault (State type) := do
  let after ← operation (← state.vector vec)
  return state.set vec after

def step (state : State type) : Operation α → Except Fault (State type)
  | .allocate n => do return state ++ [← allocate type n]
  | .insertElement vec start value => state.update vec fun vec => vec.insertElement start value
  | .insertRange vec start vec2 first last => do
    let source ← state.source vec vec2
    state.update vec fun vec => vec.insertRange start source first last
  | .insert vec start vec2 => do
    let source ← state.source vec vec2
    state.update vec fun vec => vec.insert start source
  | .remove vec first last => state.update vec fun vec => vec.remove first last
  | .swap vec first last start => state.update vec fun vec => vec.swap first last start

end State
end VectorBackend
end Memoir
