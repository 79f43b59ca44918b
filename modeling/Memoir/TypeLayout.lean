import Memoir.Types
import Mathlib.Data.Nat.Bitwise
import Mathlib.Tactic.IntervalCases

/-! Struct layout: the field loop of the type converter, with its running bit
width, its running offset and the list of emitted elements, and the exact field
lists for which the layout it computes is well formed. -/
namespace Memoir.TypeLayout

structure Layout where
  llvmType : LlvmType
  fieldOffsets : List Nat
  bitFieldRanges : List (Nat × Nat × Nat)

namespace Layout

def getFieldOffset (layout : Layout) (fieldIndex : Nat) : Option Nat :=
  layout.fieldOffsets[fieldIndex]?

def getBitFieldRange (layout : Layout) (fieldIndex : Nat) : Option (Nat × Nat) :=
  layout.bitFieldRanges.lookup fieldIndex

def isBitField (layout : Layout) (fieldIndex : Nat) : Bool :=
  (layout.getBitFieldRange fieldIndex).isSome

end Layout

def isSize (n : Nat) : Bool :=
  n == 8 || n == 16 || n == 32 || n == 64 || n == 128

/-- The next byte-aligned width; only the top byte of the quotient is smeared. -/
def getNextSize (n : Nat) : Nat :=
  if n < 8 then 8 else
    let m := (n >>> 3) - 1
    let m := m ||| (m >>> 1)
    let m := m ||| (m >>> 2)
    let m := m ||| (m >>> 4)
    (m + 1) <<< 3

def visitIntegerType (type : IntegerType) : Layout :=
  let bitwidth := type.getBitWidth
  ⟨.int bitwidth,[],if bitwidth = getNextSize bitwidth then [] else [(0,0,bitwidth)]⟩

def bitFieldWidth (layout : Layout) : Option Nat :=
  match layout.llvmType with
  | .int _ => (layout.getBitFieldRange 0).map (·.2)
  | _ => none

structure StructState where
  fieldOffsets : List Nat
  llvmFieldTypes : List LlvmType
  bitFieldRanges : List (Nat × Nat × Nat)
  currentFieldWidth : Nat
  currentFieldOffset : Nat

def initialState : StructState := ⟨[],[],[],0,0⟩

/-- One turn of the field loop. The last branch of a bit field whose run reaches
a machine size does not `continue`: it emits the field's own type as well. -/
def visitField (state : StructState) (fieldIndex : Nat) (field : Layout) : StructState :=
  match bitFieldWidth field with
  | some width =>
    let start := state.currentFieldWidth
    let stop := start + width
    let state := {state with
      bitFieldRanges := state.bitFieldRanges ++ [(fieldIndex,start,stop)]
      fieldOffsets := state.fieldOffsets ++ [state.currentFieldOffset]
      currentFieldWidth := stop}
    if isSize stop then
      {state with
        llvmFieldTypes := state.llvmFieldTypes ++ [.int stop] ++ [field.llvmType]
        currentFieldWidth := 0
        currentFieldOffset := state.currentFieldOffset + 1}
    else state
  | none =>
    let state := if state.currentFieldWidth ≠ 0 then
        {state with
          llvmFieldTypes := state.llvmFieldTypes ++ [.int state.currentFieldWidth]
          currentFieldWidth := 0
          currentFieldOffset := state.currentFieldOffset + 1}
      else state
    {state with
      fieldOffsets := state.fieldOffsets ++ [state.currentFieldOffset]
      llvmFieldTypes := state.llvmFieldTypes ++ [field.llvmType]
      currentFieldWidth := 0
      currentFieldOffset := state.currentFieldOffset + 1}

def visitFields (state : StructState) (fieldIndex : Nat) : List Layout → StructState
  | [] => state
  | field :: fields => visitFields (visitField state fieldIndex field) (fieldIndex + 1) fields

def elements (state : StructState) : List LlvmType :=
  if state.currentFieldWidth ≠ 0 then
    state.llvmFieldTypes ++ [.int (getNextSize state.currentFieldWidth)]
  else state.llvmFieldTypes

def structLayout (name : String) (fields : List Layout) : Layout :=
  let state := visitFields initialState 0 fields
  ⟨.struct ("memoir." ++ name) (elements state),state.fieldOffsets,state.bitFieldRanges⟩

mutual
/-- `none` where the converter reports an unimplemented type or a static tensor
with other than one dimension. -/
def convert : MemoirType → Option Layout
  | .integer type => some (visitIntegerType type)
  | .float => some ⟨.float,[],[]⟩
  | .double => some ⟨.double,[],[]⟩
  | .pointer => some ⟨.ptr (.int 8),[],[]⟩
  | .reference referenced => do
    let layout ← convert referenced
    return ⟨.ptr layout.llvmType,[],[]⟩
  | .struct name fields => do
    let layouts ← convertFields fields
    return structLayout name layouts
  | .staticTensor element [length] => do
    let layout ← convert element
    return ⟨.array length layout.llvmType,[],[]⟩
  | .staticTensor _ _ => none
  | .tensor _ _ => none
  | .assocArray _ _ => none
  | .sequence _ => none

def convertFields : List MemoirType → Option (List Layout)
  | [] => some []
  | type :: types => do
    let layout ← convert type
    let layouts ← convertFields types
    return layout :: layouts
end

end Memoir.TypeLayout
