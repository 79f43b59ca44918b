import Mathlib.Algebra.Group.Int.Defs
import Mathlib.Algebra.Group.Nat.Defs
import Memoir.Collection

/-! The objects of the runtime library, and its operations on them. A call that aborts,
or whose behaviour is undefined, has no result. -/
namespace Memoir
namespace Runtime

inductive Ty
  | structTy (fields : List Ty)
  | tensorTy (element : Ty) (lengthOfDimensions : Option (List Word))
  | assocArrayTy (key value : Ty)
  | sequenceTy (element : Ty)
  | integerTy (bitwidth : Nat) (isSigned : Bool)
  | floatTy | doubleTy | pointerTy | referenceTy | noneTy

inductive Contents
  | struct (fields : List Word)
  | tensor (lengthOfDimensions : List Word) (elements : List Word)
  | assocArray (key value : Ty) (entries : List (Word × Word))
  | sequence (elements : List Word)

inductive Object
  | owned (contents : Contents)
  /-- The part of a vector between two positions. -/
  | view (sequence : Nat) (first last : Nat)

/-- The objects by their handles. A view is of an object that was there before it. -/
structure Heap where
  memory : List (Option Object)
  views : ∀ (handle sequence : Nat) (first last : Nat),
    memory[handle]? = some (some (.view sequence first last)) → sequence < memory.length

/-- `(size_t)-1`, which the immutable operations take for the end of a sequence. -/
def endOfSequence : Nat := 2 ^ 64 - 1

def difference (x y : Nat) : Nat := (2 ^ 64 + x - y) % 2 ^ 64

def sum (x y : Nat) : Nat := (x + y) % 2 ^ 64

namespace Heap

def get (heap : Heap) (handle : Nat) : Option Object := (heap.memory[handle]?).join

def write (heap : Heap) (handle : Nat) (contents : Contents) : Heap where
  memory := heap.memory.set handle (some (.owned contents))
  views := by
    intro other sequence first last found
    rw [List.length_set]
    rw [List.getElem?_set] at found
    split_ifs at found
    · exact absurd found (by simp)
    · exact heap.views _ _ _ _ found

theorem views_append (heap : Heap) (object : Object)
    (below : ∀ sequence first last,object = .view sequence first last → sequence < heap.memory.length)
    (other sequence first last : Nat)
    (found : (heap.memory ++ [some object])[other]? = some (some (.view sequence first last))) :
    sequence < (heap.memory ++ [some object]).length := by
  rw [List.length_append]
  apply Nat.lt_add_right
  rcases Nat.lt_trichotomy other heap.memory.length with before | same | after
  · rw [List.getElem?_append_left before] at found
    exact heap.views _ _ _ _ found
  · subst same
    simp only [List.getElem?_concat_length,Option.some.injEq] at found
    exact below _ _ _ found
  · have outside : (heap.memory ++ [some object]).length ≤ other := by
      rw [List.length_append,List.length_singleton]
      omega
    rw [List.getElem?_eq_none outside] at found
    exact absurd found.symm (Option.some_ne_none _)

def add (heap : Heap) (contents : Contents) : Heap where
  memory := heap.memory ++ [some (.owned contents)]
  views := views_append heap (.owned contents) fun _ _ _ same => absurd same Object.noConfusion

def allocate (heap : Heap) (contents : Contents) : Heap × Nat :=
  (heap.add contents,heap.memory.length)

def delete (heap : Heap) (handle : Nat) : Heap where
  memory := heap.memory.set handle none
  views := by
    intro other sequence first last found
    rw [List.length_set]
    rw [List.getElem?_set] at found
    split_ifs at found
    · exact absurd found (by simp)
    · exact heap.views _ _ _ _ found

/-- The vector of a `SequenceAlloc`. -/
def vector (heap : Heap) (handle : Nat) : Option (List Word) :=
  match heap.get handle with
  | some (.owned (.sequence xs)) => some xs
  | _ => none

def size (heap : Heap) (collection : Nat) : Option Nat :=
  match heap.get collection with
  | some (.owned (.sequence xs)) => some xs.length
  | some (.view _ first last) => some (difference last first)
  | some (.owned (.assocArray _ _ entries)) => some entries.length
  | some (.owned (.tensor _ _)) => some 0
  | _ => none

end Heap

/-- What `begin()` and `end()` of a sequence point to. -/
structure Window where
  vector : Nat
  first : Nat
  last : Nat

namespace Heap

def window (heap : Heap) (sequence : Nat) : Option Window :=
  match heap.get sequence with
  | some (.owned (.sequence xs)) => some ⟨sequence,0,xs.length⟩
  | some (.view vector first last) => some ⟨vector,first,last⟩
  | _ => none

def range (heap : Heap) (vector first last : Nat) : Option (List Word) := do
  let xs ← heap.vector vector
  if first ≤ last ∧ last ≤ xs.length then some (slice xs first last) else none

/-- The contents of a collection. A view that no longer fits its vector has none. -/
def contents (heap : Heap) (collection : Nat) : Option Contents :=
  match heap.get collection with
  | some (.owned contents) => some contents
  | some (.view vector first last) => (heap.range vector first last).map .sequence
  | none => none

end Heap

def signExtend (word : Word) : Word :=
  if word % 2 ^ 32 < 2 ^ 31 then word % 2 ^ 32 else word % 2 ^ 32 + (2 ^ 64 - 2 ^ 32)

/-- The key of an associative array. A float comes as the integer it is cast to; the
key is uninitialized for integers over 64 bits. -/
def readKey : Ty → Word → Option Word
  | .integerTy bitwidth _,argument =>
    if bitwidth < 32 then some (signExtend argument)
    -- an int32_t and a uint32_t: the conditional is a uint32_t
    else if bitwidth ≤ 32 then some (argument % 2 ^ 32)
    else if bitwidth ≤ 64 then some argument
    else none
  | .noneTy,_ => none
  | _,argument => some argument

def isInt (n : Int) : Bool := -2 ^ 31 ≤ n && n < 2 ^ 31

/-- The position of an element: `flattened_index` and `last_dimension_length` are ints,
and an index is below the length of its dimension. -/
def flattenedIndex (flattened last : Int) : List Word → List Word → Option Int
  | [],_ => some flattened
  | length :: lengths,index :: indices =>
    if index < length ∧ isInt (flattened * last) then
      flattenedIndex ((flattened * last + index).bmod (2 ^ 32)) (Int.bmod length (2 ^ 32)) lengths
        indices
    else none
  | _ :: _,[] => none

def flattenedLength (flattened last : Int) : List Word → Option Int
  | [] => some flattened
  | length :: lengths =>
    if isInt (flattened * last) then
      flattenedLength ((flattened * last + length).bmod (2 ^ 32)) (Int.bmod length (2 ^ 32)) lengths
    else none

theorem flattenedLength_lt {lengths : List Word} {flattened last length : Int}
    (asked : flattenedLength flattened last lengths = some length) (small : flattened < 2 ^ 31) :
    length < 2 ^ 31 := by
  induction lengths generalizing flattened last with
  | nil => exact Option.some.inj asked ▸ small
  | cons dimension lengths ih =>
    rw [flattenedLength] at asked
    split_ifs at asked
    exact ih asked (Int.bmod_lt (by decide))

def tensorElement (lengths indices : List Word) (elements : List Word) : Option Nat := do
  let index ← flattenedIndex 0 1 lengths indices
  if 0 ≤ index ∧ index.toNat < elements.length then some index.toNat else none

def address (handle : Nat) : Word := handle + 1

/-- The lengths of a tensor type of static length: `unknown_length` is 0. -/
def staticLength (lengthOfDimensions : Option (List Word)) : Option (List Word) :=
  lengthOfDimensions.filter fun lengths => !lengths.contains 0

def repeated (make : Heap → Option (Heap × Word)) : Nat → Heap → Option (Heap × List Word)
  | 0,heap => some (heap,[])
  | count + 1,heap => do
    let (heap,value) ← make heap
    let (heap,values) ← repeated make count heap
    return (heap,value :: values)

/-- The loops of `init_elements` count in an `int`. -/
def pushed (make : Heap → Option (Heap × Word)) (count : Nat) (heap : Heap) :
    Option (Heap × List Word) :=
  if count < 2 ^ 31 then repeated make count heap else none

def newStruct (fields : Heap → Option (Heap × List Word)) (heap : Heap) : Option (Heap × Word) := do
  let (heap,values) ← fields heap
  let (heap,handle) := heap.allocate (.struct values)
  return (heap,address handle)

def newTensor (elements : Nat → Heap → Option (Heap × List Word)) (lengths : List Word) (heap : Heap) :
    Option (Heap × Word) := do
  let length ← flattenedLength 0 1 lengths
  if lengths = [] ∨ length < 0 then none
  let (heap,values) ← elements length.toNat heap
  let (heap,handle) := heap.allocate (.tensor lengths values)
  return (heap,address handle)

def newSequence (elements : Heap → Option (Heap × List Word)) (heap : Heap) : Option (Heap × Word) := do
  let (heap,values) ← elements heap
  let (heap,handle) := heap.allocate (.sequence values)
  return (heap,address handle)

mutual

def initElement : Ty → Heap → Option (Heap × Word)
  | .structTy fields,heap => newStruct (initFields fields) heap
  | .tensorTy element lengths,heap => do newTensor (initElements element) (← staticLength lengths) heap
  | .sequenceTy element,heap => newSequence (initElements element 0) heap
  | .assocArrayTy key value,heap => do
    let (heap,handle) := heap.allocate (.assocArray key value [])
    return (heap,address handle)
  | .integerTy _ _,heap | .floatTy,heap | .doubleTy,heap | .pointerTy,heap | .referenceTy,heap =>
    some (heap,0)
  | .noneTy,_ => none

/-- There is no case for associative arrays. -/
def initElements : Ty → Nat → Heap → Option (Heap × List Word)
  | .structTy fields,count,heap => pushed (newStruct (initFields fields)) count heap
  | .tensorTy element lengths,count,heap => do
    let lengths ← staticLength lengths
    pushed (newTensor (initElements element) lengths) count heap
  | .sequenceTy element,count,heap => pushed (newSequence (initElements element 0)) count heap
  | .integerTy _ _,count,heap => pushed (fun heap => some (heap,0)) count heap
  | .floatTy,count,heap => pushed (fun heap => some (heap,0)) count heap
  | .doubleTy,count,heap => pushed (fun heap => some (heap,0)) count heap
  | .pointerTy,count,heap => pushed (fun heap => some (heap,0)) count heap
  | .referenceTy,count,heap => pushed (fun heap => some (heap,0)) count heap
  | .assocArrayTy _ _,_,_ | .noneTy,_,_ => none

def initFields : List Ty → Heap → Option (Heap × List Word)
  | [],heap => some (heap,[])
  | field :: fields,heap => do
    let (heap,value) ← initElement field heap
    let (heap,values) ← initFields fields heap
    return (heap,value :: values)

end

def Ty.inList : Ty → Bool
  | .assocArrayTy _ _ | .noneTy => false
  | .tensorTy _ lengths => (staticLength lengths).isSome
  | _ => true

/-- A list is made as often as a single element is. -/
theorem initElements_eq (ty : Ty) (count : Nat) (heap : Heap) : initElements ty count heap =
    if ty.inList then pushed (initElement ty) count heap else none := by
  cases ty with
  | tensorTy element lengthOfDimensions =>
    cases static : staticLength lengthOfDimensions with
    | none => simp [initElements,Ty.inList,static]
    | some lengths =>
      have single : initElement (.tensorTy element lengthOfDimensions) =
          newTensor (initElements element) lengths := by
        funext heap
        simp only [initElement,static,Option.bind_eq_bind,Option.bind_some]
      simp [initElements,Ty.inList,static,single]
  | _ => rfl

theorem initElements_repeated {ty : Ty} {count : Nat} {heap : Heap} {made : Heap × List Word}
    (ran : initElements ty count heap = some made) : repeated (initElement ty) count heap = some made := by
  rw [initElements_eq] at ran
  unfold pushed at ran
  split_ifs at ran
  exact ran

/-- `assoc_array[key] = value`; new keys come last. -/
def assign : List (Word × Word) → Word → Word → List (Word × Word)
  | [],key,value => [(key,value)]
  | (key',value') :: entries,key,value =>
    if key = key' then (key,value) :: entries else (key',value') :: assign entries key value

namespace Heap

def element (heap : Heap) (collection : Nat) (arguments : List Word) : Option Word := do
  match ← heap.get collection with
  | .owned (.sequence xs) => xs[← arguments.head?]?
  | .view vector first last =>
    let index ← arguments.head?
    if index < difference last first then
      (← heap.vector vector)[index + first]?
    else none
  | .owned (.assocArray key _ entries) => entries.lookup (← readKey key (← arguments.head?))
  | .owned (.tensor lengths elements) => elements[← tensorElement lengths arguments elements]?
  | .owned (.struct _) => none

/-- An element that an associative array lacks is made. -/
def getElement (heap : Heap) (collection : Nat) (arguments : List Word) : Option (Heap × Word) :=
  match heap.get collection,heap.element collection arguments with
  | _,some value => some (heap,value)
  | some (.owned (.assocArray key value entries)),none => do
    let key' ← readKey key (← arguments.head?)
    let (heap,element) ← initElement value heap
    return (heap.write collection (.assocArray key value (assign entries key' element)),element)
  | _,none => none

def setElement (heap : Heap) (value : Word) (collection : Nat) (arguments : List Word) :
    Option Heap := do
  match ← heap.get collection with
  | .owned (.sequence xs) =>
    let index ← arguments.head?
    if index < xs.length then some (heap.write collection (.sequence (xs.set index value))) else none
  | .view vector first last =>
    let index ← arguments.head?
    let xs ← heap.vector vector
    if index < difference last first ∧ index + first < xs.length then
      some (heap.write vector (.sequence (xs.set (index + first) value)))
    else none
  | .owned (.assocArray key value' entries) =>
    let key' ← readKey key (← arguments.head?)
    return heap.write collection (.assocArray key value' (assign entries key' value))
  | .owned (.tensor lengths elements) =>
    let index ← tensorElement lengths arguments elements
    return heap.write collection (.tensor lengths (elements.set index value))
  | .owned (.struct _) => none

def hasElement (heap : Heap) (collection : Nat) (arguments : List Word) : Option Bool := do
  match ← heap.get collection with
  | .owned (.sequence xs) => return decide ((← arguments.head?) < xs.length)
  | .view _ first last => return decide ((← arguments.head?) < difference last first)
  | .owned (.assocArray key _ entries) =>
    return (entries.lookup (← readKey key (← arguments.head?))).isSome
  | .owned (.tensor lengths _) =>
    let _ ← flattenedIndex 0 1 lengths arguments
    return true
  | .owned (.struct _) => none

/-- Keys that are not integers stay. -/
def removeElement (key : Ty) (entries : List (Word × Word)) (argument : Word) :
    Option (List (Word × Word)) := do
  let key' ← readKey key argument
  match key with
  | .integerTy _ _ => return eraseEntry entries key'
  | _ => return entries

/-- The first elements of a vector, or some in the middle, overwritten by `std::copy`. -/
def copyInto (container : List Word) (offset : Nat) (xs : List Word) : Option (List Word) :=
  if offset + xs.length ≤ container.length then some (splice container offset xs.length xs) else none

def resolve (heap : Heap) (sequence : Nat) (index : Nat) : Option Nat :=
  if index = endOfSequence then heap.size sequence else some index

def erase (heap : Heap) (sequence : Nat) (first last : Nat) : Option Heap := do
  let window ← heap.window sequence
  let xs ← heap.vector window.vector
  let first := first + window.first
  let last := last + window.first
  if first ≤ last ∧ last ≤ xs.length then
    some (heap.write window.vector (.sequence (splice xs first (last - first) [])))
  else none

def sequenceCopy (heap : Heap) (collection : Nat) (i j : Nat) : Option (Heap × Nat) := do
  let i ← heap.resolve collection i
  let j ← heap.resolve collection j
  if i ≤ j then
    let window ← heap.window collection
    let copied ← heap.range window.vector (window.first + i) (window.first + j)
    let heap ← heap.erase collection i j
    return heap.allocate (.sequence copied)
  else none

def sequenceInsertElement (heap : Heap) (value : Word) (collection : Nat) (index : Nat) :
    Option (Heap × Nat) := do
  let size ← heap.size collection
  let index ← heap.resolve collection index
  let window ← heap.window collection
  let container := List.replicate (size + 1) 0
  let container ← copyInto container 0
    (← heap.range window.vector window.first (window.first + index))
  let container ← copyInto container index [value]
  let container ← copyInto container (index + 1)
    (← heap.range window.vector (window.first + index) window.last)
  return heap.allocate (.sequence container)

def sequenceInsert (heap : Heap) (toInsert collection : Nat) (index : Nat) :
    Option (Heap × Nat) := do
  let size ← heap.size collection
  let size' ← heap.size toInsert
  let index ← heap.resolve collection index
  let window ← heap.window collection
  let window' ← heap.window toInsert
  let container := List.replicate (size + size') 0
  let container ← copyInto container 0
    (← heap.range window.vector window.first (window.first + index))
  let container ← copyInto container index (← heap.range window'.vector window'.first window'.last)
  let container ← copyInto container (index + size')
    (← heap.range window.vector (window.first + index) window.last)
  return heap.allocate (.sequence container)

def sequenceRemove (heap : Heap) (collection : Nat) (first last : Nat) : Option (Heap × Nat) := do
  let size ← heap.size collection
  let first ← heap.resolve collection first
  let last ← heap.resolve collection last
  let window ← heap.window collection
  let container := List.replicate (difference size (difference last first)) 0
  let container ← copyInto container 0
    (← heap.range window.vector window.first (window.first + first))
  let container ← copyInto container first
    (← heap.range window.vector (window.first + last) window.last)
  return heap.allocate (.sequence container)

end Heap

/-- The rounds of a loop `for (auto k = 0; k < m; ++k)`: its counter is an int, which
wraps around after 2^31 rounds and is then, as a `size_t`, not below `m`. -/
def rounds (m : Nat) : Nat := min m (2 ^ 31)

def swapBetween (xs ys : List Word) (i k : Nat) : Nat → List Word × List Word
  | 0 => (xs,ys)
  | count + 1 => match xs[i]?,ys[k]? with
    | some x,some y => swapBetween (xs.set i y) (ys.set k x) (i + 1) (k + 1) count
    | _,_ => (xs,ys)

namespace Heap

def sequenceSwap (heap : Heap) (collection : Nat) (i j : Nat) (collection' : Nat) (i' : Nat) :
    Option (Heap × Nat × Nat) := do
  let size' ← heap.size collection'
  let i ← heap.resolve collection i
  let j ← heap.resolve collection j
  let i' ← heap.resolve collection' i'
  let window ← heap.window collection
  let window' ← heap.window collection'
  let m := j - i
  if i ≤ j ∧ sum i' m ≤ size' then
    let xs ← heap.range window.vector window.first window.last
    let ys ← heap.range window'.vector window'.first window'.last
    if i + rounds m ≤ xs.length ∧ i' + rounds m ≤ ys.length then
      let (xs,ys) := swapBetween xs ys i i' (rounds m)
      let (heap,first) := heap.allocate (.sequence xs)
      let (heap,second) := heap.allocate (.sequence ys)
      return (heap,first,second)
    else none
  else none

def sequenceSwapWithin (heap : Heap) (collection : Nat) (first last toFirst : Nat) :
    Option (Heap × Nat) := do
  let size ← heap.size collection
  let first ← heap.resolve collection first
  let last ← heap.resolve collection last
  let toFirst ← heap.resolve collection toFirst
  let window ← heap.window collection
  let m := last - first
  if first ≤ last ∧ sum toFirst m ≤ size then
    let container := List.replicate size 0
    let container ← copyInto container 0 (← heap.range window.vector window.first window.last)
    if first + rounds m ≤ container.length ∧ toFirst + rounds m ≤ container.length then
      return heap.allocate (.sequence (swapLoop container first toFirst (rounds m)))
    else none
  else none

def allocateStruct (heap : Heap) (ty : Ty) : Option (Heap × Nat) :=
  match ty with
  | .structTy fields => do
    let (heap,values) ← initFields fields heap
    return heap.allocate (.struct values)
  | _ => none

def allocateTensor (heap : Heap) (element : Ty) (lengths : List Word) : Option (Heap × Nat) := do
  let length ← flattenedLength 0 1 lengths
  if lengths = [] ∨ length < 0 then none
  let (heap,values) ← initElements element length.toNat heap
  return heap.allocate (.tensor lengths values)

def allocateAssocArray (heap : Heap) (key value : Ty) : Option (Heap × Nat) :=
  some (heap.allocate (.assocArray key value []))

def allocateSequence (heap : Heap) (element : Ty) (initialSize : Nat) : Option (Heap × Nat) := do
  let (heap,values) ← initElements element initialSize heap
  return heap.allocate (.sequence values)

def addView (heap : Heap) (sequence : Nat) (first last : Nat)
    (below : sequence < heap.memory.length) : Heap where
  memory := heap.memory ++ [some (.view sequence first last)]
  views := views_append heap (.view sequence first last) fun _ _ _ same =>
    (Object.view.inj same).1 ▸ below

/-- A view of a view is of the same vector. -/
def sequenceView (heap : Heap) (collection : Nat) (first last : Nat) : Option (Heap × Nat) := do
  let size ← heap.size collection
  let window ← heap.window collection
  let last := if last = endOfSequence then size else last
  if below : window.vector < heap.memory.length then
    some (heap.addView window.vector (sum first window.first)
      (sum window.first last) below,heap.memory.length)
  else none

def assocRemove (heap : Heap) (collection : Nat) (argument : Word) : Option (Heap × Nat) :=
  match heap.get collection with
  | some (.owned (.assocArray key value entries)) => do
    return heap.allocate (.assocArray key value (← removeElement key entries argument))
  | _ => none

def assocInsert (heap : Heap) (collection : Nat) (argument : Word) : Option (Heap × Nat) :=
  match heap.get collection with
  | some (.owned (.assocArray key value entries)) => do
    let (heap,new) := heap.allocate (.assocArray key value entries)
    let (heap,_) ← heap.getElement new [argument]
    return (heap,new)
  | _ => none

def assocKeys (heap : Heap) (collection : Nat) : Option (Heap × Nat) :=
  match heap.get collection with
  | some (.owned (.assocArray _ _ entries)) => some (heap.allocate (.sequence (entries.map Prod.fst)))
  | _ => none

def indexRead (heap : Heap) (collection : Nat) (arguments : List Word) : Option (Heap × Word) :=
  heap.getElement collection arguments

def assocRead (heap : Heap) (collection : Nat) (arguments : List Word) : Option (Heap × Word) :=
  heap.getElement collection arguments

def indexGet (heap : Heap) (collection : Nat) (arguments : List Word) : Option (Heap × Word) :=
  heap.getElement collection arguments

def assocGet (heap : Heap) (collection : Nat) (arguments : List Word) : Option (Heap × Word) :=
  heap.getElement collection arguments

/-- A write returns the collection that it is given. -/
def indexWrite (heap : Heap) (value : Word) (collection : Nat) (arguments : List Word) :
    Option (Heap × Nat) := do
  return (← heap.setElement value collection arguments,collection)

def assocWrite (heap : Heap) (value : Word) (collection : Nat) (arguments : List Word) :
    Option (Heap × Nat) := do
  return (← heap.setElement value collection arguments,collection)

def structRead (heap : Heap) (struct field : Nat) : Option Word :=
  match heap.get struct with
  | some (.owned (.struct fields)) => fields[field]?
  | _ => none

def mutSequenceInsertElement (heap : Heap) (value : Word) (collection : Nat) (index : Nat) :
    Option Heap := do
  let window ← heap.window collection
  let xs ← heap.vector window.vector
  let index := index + window.first
  if index ≤ xs.length then some (heap.write window.vector (.sequence (splice xs index 0 [value])))
  else none

/-- A vector cannot be inserted into itself. -/
def mutSequenceInsert (heap : Heap) (toInsert collection : Nat) (index : Nat) : Option Heap := do
  let window ← heap.window collection
  let window' ← heap.window toInsert
  let xs ← heap.vector window.vector
  let ys ← heap.range window'.vector window'.first window'.last
  let index := index + window.first
  if index ≤ xs.length ∧ window.vector ≠ window'.vector then
    some (heap.write window.vector (.sequence (splice xs index 0 ys)))
  else none

def mutSequenceRemove (heap : Heap) (collection : Nat) (first last : Nat) : Option Heap :=
  heap.erase collection first last

/-- `grow` makes room at the end of the vector, `std::copy` fills it from the end of the
sequence, and the appended sequence is deleted. -/
def mutSequenceAppend (heap : Heap) (collection toAppend : Nat) : Option Heap := do
  let size ← heap.size collection
  let size' ← heap.size toAppend
  let window ← heap.window collection
  let xs ← heap.vector window.vector
  let heap := heap.write window.vector (.sequence (xs ++ List.replicate size' 0))
  let window' ← heap.window toAppend
  let ys ← heap.range window'.vector window'.first window'.last
  let offset := window.first + size
  if window.vector = window'.vector ∧ window'.first ≤ offset ∧ offset < window'.last then none
  let filled ← copyInto (xs ++ List.replicate size' 0) offset ys
  return (heap.write window.vector (.sequence filled)).delete toAppend

def mutSequenceSwap (heap : Heap) (collection : Nat) (i j : Nat) (collection' : Nat) (i' : Nat) :
    Option Heap := do
  let size' ← heap.size collection'
  let window ← heap.window collection
  let window' ← heap.window collection'
  let m := j - i
  if i ≤ j ∧ sum i' m ≤ size' then
    let xs ← heap.vector window.vector
    let ys ← heap.vector window'.vector
    if window.first + i + rounds m ≤ xs.length ∧ window'.first + i' + rounds m ≤ ys.length then
      if window.vector = window'.vector then
        return heap.write window.vector
          (.sequence (swapLoop xs (window.first + i) (window'.first + i') (rounds m)))
      else
        let (xs,ys) := swapBetween xs ys (window.first + i) (window'.first + i') (rounds m)
        return (heap.write window.vector (.sequence xs)).write window'.vector (.sequence ys)
    else none
  else none

def mutSequenceSwapWithin (heap : Heap) (collection : Nat) (i j i' : Nat) : Option Heap := do
  let size ← heap.size collection
  let window ← heap.window collection
  let m := j - i
  if i ≤ j ∧ sum i' m ≤ size then
    let xs ← heap.vector window.vector
    if window.first + i + rounds m ≤ xs.length ∧ window.first + i' + rounds m ≤ xs.length then
      return heap.write window.vector
        (.sequence (swapLoop xs (window.first + i) (window.first + i') (rounds m)))
    else none
  else none

def mutSequenceSplit (heap : Heap) (collection : Nat) (i j : Nat) : Option (Heap × Nat) := do
  if i ≤ j then
    let window ← heap.window collection
    let moved ← heap.range window.vector (window.first + i) (window.first + j)
    let heap ← heap.erase collection i j
    return heap.allocate (.sequence moved)
  else none

end Heap

end Runtime
end Memoir
