import Memoir.AssocArray
import Memoir.FloatFormat

/-! Values in the 64-bit cells of structs and collections: the accessors of each element type cast
a value to a cell when they write it, and back when they read it. -/
namespace Memoir
namespace Runtime

/-- Pointers are the addresses of 64 bits that they are. -/
inductive CType
  | unsigned (bits : Nat)
  | signed (bits : Nat)
  | bool
  | floating (format : FloatFormat)
  | pointer

def double : FloatFormat := ⟨53,-1074,971⟩

def float : FloatFormat := ⟨24,-149,104⟩

inductive ElementType
  | u64 | u32 | u16 | u8 | u2
  | i64 | i32 | i16 | i8 | i2
  | boolean
  | f64 | f32 | ptr
  | struct_ref | collection_ref

def ElementType.cType : ElementType → CType
  | u64 => .unsigned 64
  | u32 => .unsigned 32
  | u16 => .unsigned 16
  | u8 => .unsigned 8
  | u2 => .unsigned 8
  | i64 => .signed 64
  | i32 => .signed 32
  | i16 => .signed 16
  | i8 => .signed 8
  | i2 => .signed 8
  | boolean => .bool
  | f64 => .floating double
  | f32 => .floating float
  | ptr | struct_ref | collection_ref => .pointer

inductive Value
  | integer (value : Int)
  | truth (value : Bool)
  | number (value : Rat)
  | address (value : Nat)
  deriving DecidableEq

namespace CType

def Holds : CType → Value → Prop
  | unsigned bits,.integer value => 0 ≤ value ∧ value < 2 ^ bits
  | signed bits,.integer value => -2 ^ (bits - 1) ≤ value ∧ value < 2 ^ (bits - 1)
  | bool,.truth _ => True
  | floating format,.number value => format.Represents value
  | pointer,.address value => value < 2 ^ 64
  | _,_ => False

/-- The cast to `uint64_t`. That of a number whose integral part is not one is undefined. -/
def toCell : Value → Option Word
  | .integer value => some (value % 2 ^ 64).toNat
  | .truth value => some value.toNat
  | .number value =>
    let integer := FloatFormat.truncate value
    if 0 ≤ integer ∧ integer < 2 ^ 64 then some integer.toNat else none
  | .address value => some value

def fromCell : CType → Word → Value
  | unsigned bits,cell => .integer (cell % 2 ^ bits : Nat)
  | signed bits,cell => .integer (Int.bmod cell (2 ^ bits))
  | bool,cell => .truth (cell != 0)
  | floating format,cell => .number (FloatFormat.nearest format.precision cell)
  | pointer,cell => .address cell

def Integral : Value → Prop
  | .number value => ∃ n : Nat, n < 2 ^ 64 ∧ value = n
  | _ => True

end CType

namespace Heap

def structWrite (heap : Heap) (value : Word) (struct field : Nat) : Option Heap :=
  match heap.get struct with
  | some (.owned (.struct fields)) =>
    if field < fields.length then some (heap.write struct (.struct (fields.set field value)))
    else none
  | _ => none

end Heap

inductive Location
  | field (struct name : Nat)
  | index (collection : Nat) (indices : List Word)
  | key (collection : Nat) (argument : Word)

namespace Location

def read (heap : Heap) : Location → Option (Heap × Word)
  | field struct name => (heap.structRead struct name).map fun cell => (heap,cell)
  | index collection indices => heap.indexRead collection indices
  | key collection argument => heap.assocRead collection [argument]

def write (heap : Heap) (cell : Word) : Location → Option Heap
  | field struct name => heap.structWrite cell struct name
  | index collection indices => (heap.indexWrite cell collection indices).map Prod.fst
  | key collection argument => (heap.assocWrite cell collection [argument]).map Prod.fst

def mutWrite (heap : Heap) (cell : Word) : Location → Option Heap
  | field struct name => heap.structWrite cell struct name
  | index collection indices => heap.setElement cell collection indices
  | key collection argument => heap.setElement cell collection [argument]

def In (heap : Heap) (location : Location) : Prop := ∃ after, location.mutWrite heap 0 = some after

end Location

namespace ElementType

def read (ty : ElementType) (heap : Heap) (location : Location) : Option (Heap × Value) :=
  (location.read heap).map fun found => (found.1,ty.cType.fromCell found.2)

def write (heap : Heap) (location : Location) (value : Value) : Option Heap := do
  location.write heap (← CType.toCell value)

def mutWrite (heap : Heap) (location : Location) (value : Value) : Option Heap := do
  location.mutWrite heap (← CType.toCell value)

def Returns (ty : ElementType) (value : Value) : Prop :=
  ∀ (heap : Heap) (location : Location), location.In heap →
    (∃ after found, write heap location value = some after ∧
      ty.read after location = some (found,value)) ∧
    ∃ after found, mutWrite heap location value = some after ∧
      ty.read after location = some (found,value)

end ElementType

variable {heap after : Heap} {cell : Word}

theorem tensorElement_lt {lengths indices elements : List Word} {index : Nat}
    (is : tensorElement lengths indices elements = some index) : index < elements.length := by
  simp only [tensorElement,Option.bind_eq_bind,Option.bind_eq_some_iff] at is
  obtain ⟨position,_,is⟩ := is
  split_ifs at is with inside
  exact Option.some.inj is ▸ inside.2

/-- A cell is read where it has been set. -/
theorem element_setElement {collection : Nat} {arguments : List Word}
    (wrote : heap.setElement cell collection arguments = some after) :
    after.element collection arguments = some cell := by
  simp only [Heap.setElement,Option.bind_eq_bind,Option.bind_eq_some_iff] at wrote
  obtain ⟨object,found,wrote⟩ := wrote
  have there := Heap.get_lt found
  rcases object with (fields | ⟨lengths,elements⟩ | ⟨key,value,entries⟩ | xs) | ⟨vector,first,last⟩
  · exact absurd wrote (by simp)
  · simp only [Option.bind_eq_some_iff,Option.pure_def,Option.some.injEq] at wrote
    obtain ⟨index,is,rfl⟩ := wrote
    have below : index < elements.length := tensorElement_lt is
    have same : tensorElement lengths arguments (elements.set index cell) = some index := by
      rw [← is]
      simp only [tensorElement,List.length_set]
    simp [Heap.element,Heap.get_write there,same,below]
  · simp only [Option.bind_eq_some_iff,Option.pure_def,Option.some.injEq] at wrote
    obtain ⟨argument,head,key',isKey,rfl⟩ := wrote
    simp [Heap.element,Heap.get_write there,head,isKey,AssocArray.lookup_assign]
  · simp only [Option.bind_eq_some_iff] at wrote
    obtain ⟨index,head,wrote⟩ := wrote
    split_ifs at wrote with bound
    obtain rfl := Option.some.inj wrote
    simp [Heap.element,Heap.get_write there,head,bound]
  · simp only [Option.bind_eq_some_iff] at wrote
    obtain ⟨index,head,xs,isVector,wrote⟩ := wrote
    split_ifs at wrote with bound
    obtain rfl := Option.some.inj wrote
    -- The view is not its vector.
    have viewed := Heap.vector_eq.mp isVector
    have apart : vector ≠ collection := by
      rintro rfl
      rw [viewed] at found
      cases found
    simp [Heap.element,Heap.get_write_ne apart,found,head,bound.1,Heap.vector,
      Heap.get_write (Heap.get_lt viewed),bound.2]

theorem structRead_structWrite {struct name : Nat}
    (wrote : heap.structWrite cell struct name = some after) :
    after.structRead struct name = some cell := by
  unfold Heap.structWrite at wrote
  split at wrote
  · rename_i fields found
    split_ifs at wrote with below
    obtain rfl := Option.some.inj wrote
    simp [Heap.structRead,Heap.get_write (Heap.get_lt found),below]
  · exact absurd wrote (by simp)

/-- Whether an element can be set does not depend on what it is set to. -/
theorem setElement_isSome (heap : Heap) (cell cell' : Word) (collection : Nat)
    (arguments : List Word) :
    (heap.setElement cell collection arguments).isSome =
      (heap.setElement cell' collection arguments).isSome := by
  unfold Heap.setElement
  rcases heap.get collection with
    _ | (fields | ⟨lengths,elements⟩ | ⟨key,value,entries⟩ | xs) | ⟨vector,first,last⟩
  · rfl
  · rfl
  · cases is : tensorElement lengths arguments elements <;> simp [is]
  · cases arguments.head? with
    | none => rfl
    | some argument => cases isKey : readKey key argument <;> simp [isKey]
  · cases arguments.head? with
    | none => rfl
    | some index => by_cases below : index < xs.length <;> simp [below]
  · cases arguments.head? with
    | none => rfl
    | some index =>
      cases isVector : heap.vector vector with
      | none => simp [isVector]
      | some xs =>
        by_cases below : index < difference last first ∧ index + first < xs.length
        · simp [isVector,below]
        · simp only [isVector,Option.bind_eq_bind,Option.bind_some,if_neg below]

namespace Location

theorem write_eq (heap : Heap) (cell : Word) (location : Location) :
    location.write heap cell = location.mutWrite heap cell := by
  cases location with
  | field struct name => rfl
  | index collection indices =>
    cases wrote : heap.setElement cell collection indices <;>
      simp [write,mutWrite,Heap.indexWrite,wrote]
  | key collection argument =>
    cases wrote : heap.setElement cell collection [argument] <;>
      simp [write,mutWrite,Heap.assocWrite,wrote]

theorem In.mutWrite {location : Location} (isIn : location.In heap) (cell : Word) :
    ∃ after, location.mutWrite heap cell = some after := by
  have same (collection : Nat) (arguments : List Word)
      (isIn : ∃ after, heap.setElement 0 collection arguments = some after) :
      ∃ after, heap.setElement cell collection arguments = some after := by
    rw [← Option.isSome_iff_exists] at isIn ⊢
    rw [setElement_isSome heap cell 0,isIn]
  cases location with
  | field struct name =>
    obtain ⟨after,wrote⟩ := isIn
    simp only [Location.mutWrite,Heap.structWrite] at wrote ⊢
    split at wrote
    · split_ifs at wrote with below
      exact ⟨_,if_pos below⟩
    · exact absurd wrote (by simp)
  | index collection indices => exact same collection indices isIn
  | key collection argument => exact same collection [argument] isIn

theorem read_mutWrite {location : Location} (wrote : location.mutWrite heap cell = some after) :
    location.read after = some (after,cell) := by
  have element {collection : Nat} {arguments : List Word}
      (wrote : heap.setElement cell collection arguments = some after) :
      after.getElement collection arguments = some (after,cell) := by
    have found := element_setElement wrote
    unfold Heap.getElement
    rw [found]
  cases location with
  | field struct name => rw [Location.read,structRead_structWrite wrote,Option.map_some]
  | index collection indices => exact element wrote
  | key collection argument => exact element wrote

end Location

namespace CType

/-- The integers of a type that a cell has room for. -/
def Fits : CType → Prop
  | unsigned bits => bits ≤ 64
  | signed bits => 0 < bits ∧ bits ≤ 64
  | _ => True

theorem fromCell_toCell {ty : CType} (fits : ty.Fits) {value : Value} (holds : ty.Holds value)
    (integral : Integral value) :
    ∃ cell, toCell value = some cell ∧ ty.fromCell cell = value := by
  cases ty with
  | unsigned bits =>
    cases value with
    | integer value =>
      refine ⟨_,rfl,?_⟩
      obtain ⟨nonnegative,below⟩ : 0 ≤ value ∧ value < 2 ^ bits := holds
      have width : (2 : Int) ^ bits ≤ 2 ^ 64 := pow_le_pow_right₀ (by decide) fits
      have same : value % 2 ^ 64 = value := Int.emod_eq_of_lt nonnegative (by omega)
      rw [fromCell,same,Int.natCast_mod,Int.toNat_of_nonneg nonnegative]
      push_cast
      rw [Int.emod_eq_of_lt nonnegative below]
    | _ => exact holds.elim
  | signed bits =>
    cases value with
    | integer value =>
      refine ⟨_,rfl,?_⟩
      obtain ⟨above,below⟩ : -2 ^ (bits - 1) ≤ value ∧ value < 2 ^ (bits - 1) := holds
      obtain ⟨some,width⟩ : 0 < bits ∧ bits ≤ 64 := fits
      have double : 2 ^ bits = 2 * 2 ^ (bits - 1) := by
        rw [← pow_succ',Nat.sub_add_cancel some]
      have divides : ((2 ^ bits : Nat) : Int) ∣ 2 ^ 64 := by
        push_cast
        exact pow_dvd_pow 2 width
      have residue : (value % 2 ^ 64).bmod (2 ^ bits) = value.bmod (2 ^ bits) := by
        rw [← Int.emod_bmod (value % 2 ^ 64),Int.emod_emod_of_dvd _ divides,Int.emod_bmod]
      rw [fromCell,Int.toNat_of_nonneg (Int.emod_nonneg value (by decide)),residue,
        Int.bmod_eq_of_le_mul_two]
      · rw [double]
        push_cast
        omega
      · rw [double]
        push_cast
        omega
    | _ => exact holds.elim
  | bool =>
    cases value with
    | truth value => exact ⟨_,rfl,by cases value <;> rfl⟩
    | _ => exact holds.elim
  | floating format =>
    cases value with
    | number value =>
      obtain ⟨n,below,rfl⟩ := integral
      refine ⟨n,?_,?_⟩
      · rw [toCell,FloatFormat.truncate_natCast]
        simp only [Int.toNat_natCast]
        rw [if_pos ⟨by omega,by omega⟩]
      · rw [fromCell,FloatFormat.nearest_of_represents holds]
    | _ => exact holds.elim
  | pointer =>
    cases value with
    | address value => exact ⟨value,rfl,rfl⟩
    | _ => exact holds.elim

/-- A number that comes back has no fraction and is not negative. -/
theorem integral_of_fromCell {ty : CType} {value : Value} (holds : ty.Holds value) {cell : Word}
    (wrote : toCell value = some cell) (same : ty.fromCell cell = value) : Integral value := by
  cases value with
  | number value =>
    cases ty with
    | floating format =>
      have is : value = (FloatFormat.nearest format.precision cell : Nat) := by
        simpa [fromCell] using same.symm
      rw [toCell,is,FloatFormat.truncate_natCast] at wrote
      split_ifs at wrote with range
      exact ⟨_,by omega,is⟩
    | _ => exact holds.elim
  | _ => trivial

end CType

theorem ElementType.fits (ty : ElementType) : ty.cType.Fits := by
  cases ty <;> simp [ElementType.cType,CType.Fits]

/-- A struct of one field. -/
def oneField : Heap where
  memory := [some (.owned (.struct [0]))]
  views := by
    intro handle sequence first last found
    cases handle <;> simp at found

/-- A value is read back, from every location and after either kind of write, unless it is a
floating-point number that is not a natural number of 64 bits. -/
theorem returns_iff (ty : ElementType) (value : Value) (holds : ty.cType.Holds value) :
    ty.Returns value ↔ CType.Integral value := by
  constructor
  · intro returns
    obtain ⟨_,after,found,wrote,read⟩ := returns oneField (.field 0 0) ⟨_,rfl⟩
    obtain ⟨cell,isCell,wrote⟩ := Option.bind_eq_some_iff.mp wrote
    rw [ElementType.read,Location.read_mutWrite wrote] at read
    exact CType.integral_of_fromCell holds isCell (Prod.mk.inj (Option.some.inj read)).2
  · intro integral heap location isIn
    obtain ⟨cell,isCell,same⟩ := CType.fromCell_toCell ty.fits holds integral
    obtain ⟨after,wrote⟩ := isIn.mutWrite cell
    have read : ty.read after location = some (after,value) := by
      rw [ElementType.read,Location.read_mutWrite wrote,Option.map_some,same]
    constructor
    · refine ⟨after,after,?_,read⟩
      rw [ElementType.write,isCell]
      exact (location.write_eq heap cell).trans wrote
    · refine ⟨after,after,?_,read⟩
      rw [ElementType.mutWrite,isCell]
      exact wrote

theorem minusOne_returns : ElementType.i8.Returns (.integer (-1)) ↔ CType.Integral (.integer (-1)) :=
  returns_iff .i8 (.integer (-1)) ⟨by decide,by decide⟩

/-- A half is read back as zero. -/
theorem half_not_returns :
    ElementType.f64.cType.Holds (.number (1 / 2)) ∧
      ¬ ElementType.f64.Returns (.number (1 / 2)) := by
  constructor
  · exact ⟨1,-1,by decide,by decide,by decide,by norm_num⟩
  · intro returns
    obtain ⟨_,after,found,wrote,read⟩ := returns oneField (.field 0 0) ⟨_,rfl⟩
    have cell : CType.toCell (.number (1 / 2)) = some 0 := by decide +kernel
    rw [ElementType.mutWrite,cell,Option.bind_eq_bind,Option.bind_some] at wrote
    rw [ElementType.read,Location.read_mutWrite wrote] at read
    have same := Value.number.inj (Prod.mk.inj (Option.some.inj read)).2
    simp [FloatFormat.nearest] at same

end Runtime
end Memoir
