import Mathlib.Data.List.Basic

/-! The compiler's type language and the LLVM types it is lowered to. A struct
type carries its field types, so only non-recursive struct types are values of
`MemoirType`; the static getters of the compiler are its constructors. -/
namespace Memoir

/-- The integer types that the compiler's getters offer; there are no others. -/
inductive IntegerType
  | u64 | u32 | u16 | u8 | u2 | i64 | i32 | i16 | i8 | i2 | boolean
  deriving DecidableEq, Repr

namespace IntegerType

def getBitWidth : IntegerType → Nat
  | u64 | i64 => 64
  | u32 | i32 => 32
  | u16 | i16 => 16
  | u8 | i8 => 8
  | u2 | i2 => 2
  | boolean => 1

def isSigned : IntegerType → Bool
  | i64 | i32 | i16 | i8 | i2 => true
  | u64 | u32 | u16 | u8 | u2 | boolean => false

end IntegerType

inductive MemoirType
  | integer (type : IntegerType)
  | float
  | double
  | pointer
  | reference (referenced : MemoirType)
  | struct (name : String) (fields : List MemoirType)
  | staticTensor (element : MemoirType) (dimensions : List Nat)
  | tensor (element : MemoirType) (numDimensions : Nat)
  | assocArray (key value : MemoirType)
  | sequence (element : MemoirType)

inductive LlvmType
  | int (width : Nat)
  | float
  | double
  | ptr (pointee : LlvmType)
  | array (length : Nat) (element : LlvmType)
  | struct (name : String) (elements : List LlvmType)

end Memoir
