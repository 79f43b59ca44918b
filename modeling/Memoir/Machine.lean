import Memoir.Ir
import Mathlib.Logic.Function.Basic
import Mathlib.Logic.Relation

/-! Runs of a function over two memories. In place, a reference is a handle with
the version of the object that it has seen; objects count their versions, and no
step depends on them. With value semantics an object never changes and every
operation makes new ones. -/
namespace Memoir

inductive RtValue (ρ : Type)
  | word (word : Word)
  | reference (reference : ρ)
  | pair (first second : ρ)
  /-- The result of `memoir_end`. -/
  | endOfSequence
  deriving DecidableEq

/-- `defined` keeps what a name stood for when it was defined; no step depends on it. -/
structure State (ρ μ : Type) where
  env : Name → Option (RtValue ρ)
  defined : Name → Option (RtValue ρ)
  memory : Nat → Option μ
  next : Nat
  trace : List Event

abbrev Oracle := List Event → Reply

section
variable {ρ μ : Type}

abbrev Env (ρ : Type) := Name → Option (RtValue ρ)

def word (env : Env ρ) : Scalar → Option Word
  | .constant w => some w
  | .name n => match env n with
    | some (.word w) => some w
    | _ => none

/-- An index; the end of the sequence is `none`. -/
def index (env : Env ρ) : Scalar → Option (Option Word)
  | .constant w => some (some w)
  | .name n => match env n with
    | some (.word w) => some (some w)
    | some .endOfSequence => some none
    | _ => none

def reference (env : Env ρ) : Value → Option ρ
  | .name n => match env n with
    | some (.reference r) => some r
    | _ => none
  | .constant _ | .null => none

def datum (env : Env ρ) : Element → Option (Datum ρ)
  | .scalar s => (word env s).map .scalar
  | .collection v => (reference env v).map .collection

/-- What a PHI node passes on; a constant of collection type is undefined. -/
def evaluate (env : Env ρ) : Element → Option (RtValue ρ)
  | .scalar (.constant w) => some (.word w)
  | .scalar (.name n) | .collection (.name n) => env n
  | .collection (.constant _) | .collection .null => none

def rtValue : Datum ρ → RtValue ρ
  | .scalar w => .word w
  | .collection r => .reference r

def Inst.operation (env : Env ρ) (reply : Reply) : Inst → Option (Operation ρ)
  | mutIndexWrite value _ i | indexWrite value _ i => do
    return .indexWrite (← word env i) (← datum env value)
  | mutAssocWrite value _ key | assocWrite value _ key => do
    return .assocWrite (← word env key) (← datum env value)
  | mutSeqInsert value _ i => do return .seqInsert (some (← word env i)) (← datum env value)
  | seqInsert value _ i => do return .seqInsert (← index env i) (← datum env value)
  | mutSeqInsertSeq _ _ i => do return .seqInsertSeq (some (← word env i))
  | seqInsertSeq _ _ i => do return .seqInsertSeq (← index env i)
  | mutSeqAppend _ _ => some (.seqInsertSeq none)
  | mutSeqRemove _ first last => do
    return .seqRemove (some (← word env first)) (some (← word env last))
  | seqRemove _ first last => do return .seqRemove (← index env first) (← index env last)
  | mutSeqSwap _ first last _ toFirst => do
    return .seqSwap (some (← word env first)) (some (← word env last)) (some (← word env toFirst))
  | seqSwap _ first last _ toFirst => do
    return .seqSwap (← index env first) (← index env last) (← index env toFirst)
  | mutSeqSwapWithin _ first last toFirst => do
    return .seqSwapWithin (some (← word env first)) (some (← word env last))
      (some (← word env toFirst))
  | seqSwapWithin _ first last toFirst => do
    return .seqSwapWithin (← index env first) (← index env last) (← index env toFirst)
  | mutSeqSplit _ first last => do return .seqSplit (← word env first) (← word env last)
  | seqCopy _ first last => do return .seqCopy (← index env first) (← index env last)
  | mutAssocInsert _ key | assocInsert _ key => do return .assocInsert (← word env key)
  | mutAssocRemove _ key | assocRemove _ key => do return .assocRemove (← word env key)
  | indexRead _ i | indexGet _ i => do return .indexRead (← word env i)
  | assocRead _ key | assocGet _ key => do return .assocRead (← word env key)
  | assocHas _ key => do return .assocHas (← word env key)
  | size _ => some .size
  | assocKeys _ => some .assocKeys
  | seqAlloc length => do return .seqAlloc (← word env length)
  | assocAlloc => some .assocAlloc
  | call callee _ scalars => do return .call callee (← scalars.mapM (word env)) reply
  | backend function _ scalars value => do
    let words ← scalars.mapM (word env)
    let element ← value.mapM (datum env)
    match function,words,element with
    | .size,[],none => some .size
    | .vectorAllocate,[length],none => some (.seqAlloc length)
    | .vectorRead,[i],none | .vectorGet,[i],none => some (.indexRead i)
    | .vectorWrite,[i],some d => some (.indexWrite i d)
    | .vectorInsertElement,[i],some d => some (.seqInsert (some i) d)
    | .vectorInsert,[i],none => some (.seqInsertSeq (some i))
    | .vectorRemoveRange,[first,last],none => some (.seqRemove (some first) (some last))
    | .vectorCopy,[first,last],none => some (.seqCopy (some first) (some last))
    | .vectorSwap,[first,last,toFirst],none =>
      some (.seqSwap (some first) (some last) (some toFirst))
    | .mapAllocate,[],none => some .assocAlloc
    | .mapRead,[key],none | .mapGet,[key],none => some (.assocRead key)
    | .mapWrite,[key],some d => some (.assocWrite key d)
    | .mapHas,[key],none => some (.assocHas key)
    | .mapInsert,[key],none => some (.assocInsert key)
    | .mapRemove,[key],none => some (.assocRemove key)
    | .mapKeys,[],none => some .assocKeys
    | _,_,_ => none
  | extractValue _ _ | collectionPhi _ _ | deleteCollection _ | endInst | scalar _ _ => none

namespace State

def bind (state : State ρ μ) (n : Name) (value : RtValue ρ) : State ρ μ :=
  {state with
    env := Function.update state.env n (some value)
    defined := Function.update state.defined n (some value)}

/-- A name that was defined before stands for a new version of its object. -/
def restamp (state : State ρ μ) (n : Name) (reference : ρ) : State ρ μ :=
  {state with env := Function.update state.env n (some (.reference reference))}

def emit (state : State ρ μ) (events : List Event) : State ρ μ :=
  {state with trace := events ++ state.trace}

end State
end

structure Stamp where
  handle : Nat
  version : Nat
  deriving DecidableEq

structure Object where
  version : Nat
  content : Content Stamp

namespace InPlace

abbrev Store := State Stamp Object

def content (state : Store) (stamp : Stamp) : Option (Content Stamp) :=
  (state.memory stamp.handle).map (·.content)

/-- Two operands on one object: a swap exchanges within it, and a vector cannot be
inserted into itself. -/
def runOn (state : Store) (operation : Operation Stamp) (mutated read : List Stamp) :
    Option (Outcome Stamp) :=
  match operation,mutated,read with
  | .seqSwap first last toFirst,[x,y],[] => do
    if x.handle = y.handle then
      (Operation.seqSwapWithin first last toFirst).run [← content state x] []
    else operation.run [← content state x,← content state y] []
  | .seqInsertSeq _,[x],[y] => do
    if x.handle = y.handle then none
    operation.run [← content state x] [← content state y]
  | _,_,_ => do
    operation.run (← mutated.mapM (content state)) (← read.mapM (content state))

/-- A mutated object gets a new version, which its operand has seen. -/
def writeBack (state : Store) : List (Value × Stamp × Option (Content Stamp)) → Store
  | [] => state
  | (_,_,none) :: rest => writeBack state rest
  | (operand,stamp,some content) :: rest =>
    let version := ((state.memory stamp.handle).map (·.version)).getD 0 + 1
    let state := {state with
      memory := Function.update state.memory stamp.handle (some ⟨version,content⟩)}
    writeBack (match operand with
      | .name n => state.restamp n ⟨stamp.handle,version⟩
      | _ => state) rest

def free (state : Store) (stamps : List Stamp) : Store :=
  {state with memory := fun handle =>
    if handle ∈ stamps.map (·.handle) then none else state.memory handle}

def allocate (state : Store) (n : Name) (content : Content Stamp) : Store :=
  {state with memory := Function.update state.memory state.next (some ⟨0,content⟩)
              next := state.next + 1}.bind n (.reference ⟨state.next,0⟩)

/-- The result of an instruction; the backends that update a collection return it. -/
def bindResult (state : Store) (n : Name) (inst : Inst) (mutated : List Stamp)
    (outcome : Outcome Stamp) : Store :=
  match outcome.created,outcome.result with
  | some content,_ => allocate state n content
  | none,some d => state.bind n (rtValue d)
  | none,none => match inst,mutated with
    | .backend .vectorInsertElement _ _ _,[stamp] | .backend .vectorInsert _ _ _,[stamp]
    | .backend .vectorRemoveRange _ _ _,[stamp] | .backend .mapInsert _ _ _,[stamp]
    | .backend .mapRemove _ _ _,[stamp] => state.bind n (.reference stamp)
    | _,_ => state

def consume (state : Store) (inst : Inst) (read : List Stamp) : Store :=
  match inst with
  | .mutSeqAppend _ _ => free state read
  | _ => state

/-- One instruction of the runtime or a backend; SSA forms are not executed here. -/
def exec (oracle : Oracle) (n : Name) (inst : Inst) (state : Store) : Option Store :=
  match inst with
  | .scalar function operands => do
    let words ← operands.mapM (word state.env)
    return state.bind n (.word (function words))
  | .backend .free [operand] [] none => do return free state [← reference state.env operand]
  | inst => do
    if inst.isSsa then none
    let operation ← inst.operation state.env (oracle state.trace)
    let mutated ← inst.mutated.mapM (reference state.env)
    let read ← inst.read.mapM (reference state.env)
    let outcome ← runOn state operation mutated read
    let after := writeBack state (inst.mutated.zip (mutated.zip outcome.mutated))
    return (bindResult (consume after inst read) n inst mutated outcome).emit outcome.events

end InPlace

namespace Pure

abbrev Store := State Nat (Content Nat)

def allocate (state : Store) : List (Content Nat) → Store × List Nat
  | [] => (state,[])
  | content :: rest =>
    let (after,tokens) := allocate {state with
      memory := Function.update state.memory state.next (some content)
      next := state.next + 1} rest
    (after,state.next :: tokens)

def bindResult (state : Store) (n : Name) (tokens : List Nat) (result : Option (Datum Nat)) :
    Store :=
  match tokens,result with
  | [token],_ => state.bind n (.reference token)
  | [x,y],_ => state.bind n (.pair x y)
  | _,some d => state.bind n (rtValue d)
  | _,none => state

/-- A write makes new objects for what it mutates; a read mutates nothing. -/
def exec (oracle : Oracle) (n : Name) (inst : Inst) (state : Store) : Option Store :=
  match inst with
  | .scalar function operands => do
    let words ← operands.mapM (word state.env)
    return state.bind n (.word (function words))
  | .endInst => some (state.bind n .endOfSequence)
  | .extractValue pair second => match state.env pair with
    | some (.pair x y) => some (state.bind n (.reference (if second then y else x)))
    | _ => none
  | .collectionPhi _ collection => do
    return state.bind n (.reference (← reference state.env collection))
  | .deleteCollection deleted => do
    let _ ← state.memory (← reference state.env deleted)
    return state
  | inst => do
    if inst.isMut then none
    let operation ← inst.operation state.env (oracle state.trace)
    let mutated ← (← inst.mutated.mapM (reference state.env)).mapM state.memory
    let read ← (← inst.read.mapM (reference state.env)).mapM state.memory
    let outcome ← operation.run mutated read
    let written := if inst.isSsa then outcome.mutated.reduceOption else []
    let (after,tokens) := allocate state (written ++ outcome.created.toList)
    return bindResult (after.emit outcome.events) n tokens outcome.result

end Pure

section
variable {ρ μ : Type}

structure Config (ρ μ : Type) where
  block : Nat
  rest : List (Name × Inst)
  state : State ρ μ

def start (function : Function) (state : State ρ μ) : Config ρ μ :=
  ⟨0,((function.blocks[0]?).map (·.body)).getD [],state⟩

/-- The PHI nodes of a block take their values from the edge, all at once. -/
def enter (function : Function) (source target : Nat) (state : State ρ μ) :
    Option (Config ρ μ) := do
  let block ← function.blocks[target]?
  let values ← block.phis.mapM fun (n,phi) => do
    return (n,evaluate state.env (← phi.incoming.lookup source))
  return ⟨target,block.body,{state with
    env := fun n => (values.lookup n).getD (state.env n)
    defined := fun n => (values.lookup n).getD (state.defined n)}⟩

def target (targets : List Nat) (selector : Word) : Option Nat :=
  (targets[selector]?).orElse fun _ => targets.getLast?

def step (function : Function) (exec : Name → Inst → State ρ μ → Option (State ρ μ)) :
    Config ρ μ → Option (Config ρ μ)
  | ⟨block,(n,inst) :: rest,state⟩ => (exec n inst state).map fun state => ⟨block,rest,state⟩
  | ⟨block,[],state⟩ => do
    match (← function.blocks[block]?).terminator with
    | .ret _ => none
    | .switch selector targets =>
      enter function block (← target targets (← word state.env selector)) state

def Run (function : Function) (exec : Name → Inst → State ρ μ → Option (State ρ μ))
    (good : Config ρ μ → Prop) : Config ρ μ → Config ρ μ → Prop :=
  Relation.ReflTransGen fun before after => good before ∧ step function exec before = some after

end

end Memoir
