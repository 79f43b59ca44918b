import Memoir.RoundTripPreserves

/-! The types that destruction asks for, in the code that construction makes: the type of a collection has to
be found, and a key is cast to the parameter of the backend's function. -/
namespace Memoir

def Inst.key? : Inst → Option Scalar
  | mutAssocWrite _ _ key | mutAssocInsert _ key | mutAssocRemove _ key | assocWrite _ _ key
  | assocInsert _ key | assocRemove _ key | assocRead _ key | assocGet _ key | assocHas _ key => some key
  | _ => none

/-- The visitor asks for the type of a collection. -/
def Inst.asksType : Inst → Bool
  | call _ _ _ | collectionPhi _ _ => false
  | inst => !(inst.mutated ++ inst.read).isEmpty

/-- The instruction in whose place a name was put. -/
def Name.origin : Name → Name
  | .ssa block index _ => .inst block index
  | n => n

namespace Construction.RoundTrip
open Dominance Destruction

/-- The types of keys in LLVM. -/
inductive KeyType
  | integer (bits : Nat)
  | float | double | pointer
  deriving DecidableEq

/-- `CreateBitOrPointerCast`. -/
def castable : KeyType → KeyType → Bool
  | .integer _,.pointer | .pointer,.integer _ | .pointer,.pointer => true
  | .integer bits,.integer bits' => bits = bits'
  | .integer bits,.float | .float,.integer bits => bits = 32
  | .integer bits,.double | .double,.integer bits => bits = 64
  | .float,.float | .double,.double => true
  | _,_ => false

/-- The types of the keys that are passed; and for each instruction on a collection, whether `TypeAnalysis` finds
the type of the collection, and the parameter for keys that this type has. -/
structure Types where
  passed : Scalar → KeyType
  found : Name → Bool
  parameter : Name → KeyType

namespace Types

def lowers (types : Types) (entry : Name × Inst) : Bool :=
  (!entry.2.asksType || types.found entry.1.origin) &&
    entry.2.key?.all fun key => castable (types.passed key) (types.parameter entry.1.origin)

def lowersAll (types : Types) {function : Function} (tree : Tree function) : Bool :=
  (visited function tree).all types.lowers

/-- Without a type, or on a cast that is none, the compiler aborts. -/
def destruct (types : Types) (function : Function) (tree : Tree function) : Option Function :=
  if types.lowersAll tree then Destruction.destruct function tree else none

end Types

/-- The two passes get through, and every run in place is followed by the function that comes out. -/
def RoundTrips (program : Program) (tree : Tree program.function) (typed : Name → Bool) (types : Types) : Prop :=
  ∃ ssa, construct program.function tree typed = some ssa ∧ ∀ tree' : Tree ssa,
    ∃ result, types.destruct ssa tree' = some result ∧
      ∀ (oracle : Oracle) (state : InPlace.Store) (after : Config Stamp Object),
        (∀ handle object, state.memory handle = some object → handle < state.next) →
        Run program.function (InPlace.exec (environment oracle)) (fun _ => True)
          (start program.function state) after →
        ∃ after', Run result (InPlace.exec (environment oracle)) (fun _ => True) (start result state) after' ∧
          Agrees program.function result after after'

section
variable {program : Program} {tree : Tree program.function} {inserted : List (Name × List Nat)}
  {types : Types}

end

end Construction.RoundTrip
end Memoir
