import Memoir.Executions

/-! The machine in place with handles for references. Nothing in place depends on a version: what the
handles show of a run in place is a run of this machine, and each of its runs is shown by one. -/
namespace Memoir

namespace Unversioned

abbrev Store := State Nat (Content Nat)

def runOn (state : Store) (operation : Operation Nat) (mutated read : List Nat) :
    Option (Outcome Nat) :=
  match operation,mutated,read with
  | .seqSwap first last toFirst,[x,y],[] => do
    if x = y then (Operation.seqSwapWithin first last toFirst).run [← state.memory x] []
    else operation.run [← state.memory x,← state.memory y] []
  | .seqInsertSeq _,[x],[y] => do
    if x = y then none
    operation.run [← state.memory x] [← state.memory y]
  | _,_,_ => do
    operation.run (← mutated.mapM state.memory) (← read.mapM state.memory)

def mutate (state : Store) (handle : Nat) (content : Content Nat) : Store :=
  {state with memory := Function.update state.memory handle (some content)}

def writeBack (state : Store) : List (Nat × Option (Content Nat)) → Store
  | [] => state
  | (_,none) :: rest => writeBack state rest
  | (handle,some content) :: rest => writeBack (mutate state handle content) rest

def free (state : Store) (handles : List Nat) : Store :=
  {state with memory := fun handle => if handle ∈ handles then none else state.memory handle}

def allocate (state : Store) (n : Name) (content : Content Nat) : Store :=
  {state with memory := Function.update state.memory state.next (some content)
              next := state.next + 1}.bind n (.reference state.next)

def bindResult (state : Store) (n : Name) (inst : Inst) (mutated : List Nat)
    (outcome : Outcome Nat) : Store :=
  match outcome.created,outcome.result with
  | some content,_ => allocate state n content
  | none,some d => state.bind n (rtValue d)
  | none,none => match inst,mutated with
    | .backend .vectorInsertElement _ _ _,[handle] | .backend .vectorInsert _ _ _,[handle]
    | .backend .vectorRemoveRange _ _ _,[handle] | .backend .mapInsert _ _ _,[handle]
    | .backend .mapRemove _ _ _,[handle] => state.bind n (.reference handle)
    | _,_ => state

def consume (state : Store) (inst : Inst) (read : List Nat) : Store :=
  match inst with
  | .mutSeqAppend _ _ => free state read
  | _ => state

def exec (oracle : Oracle) (n : Name) (inst : Inst) (state : Store) : Option Store :=
  match inst with
  | .scalar function operands => do
    let words ← operands.mapM (word state.env)
    return state.bind n (.word (function words))
  | .backend .free [operand] [] none => do return free state [← reference state.env operand]
  | inst => do
    if inst.isSsa then none
    let operation ← inst.operation state.env (oracle state.trace)
    let mutated ← inst.mutated.mapM (reference state.env)
    let read ← inst.read.mapM (reference state.env)
    let outcome ← runOn state operation mutated read
    let after := writeBack state (mutated.zip outcome.mutated)
    return (bindResult (consume after inst read) n inst mutated outcome).emit outcome.events

end Unversioned

section
variable {ρ σ : Type} (rename : ρ → σ)

def Env.map (env : Env ρ) : Env σ := fun n => (env n).map (RtValue.map rename)

theorem evaluate_rename (env : Env ρ) (e : Element) :
    evaluate (env.map rename) e = (evaluate env e).map (RtValue.map rename) := by
  rcases e with (w | n) | (n | k | _) <;> rfl

end

namespace InPlace

/-- What the handles show of a state. -/
def erase (state : Store) : Unversioned.Store where
  env := Env.map Stamp.handle state.env
  defined := Env.map Stamp.handle state.defined
  memory handle := (state.memory handle).map fun object => object.content.map Stamp.handle
  next := state.next
  trace := state.trace

section
variable {state : Store}

end

end InPlace

def Config.erase (config : Config Stamp Object) : Config Nat (Content Nat) :=
  ⟨config.block,config.rest,InPlace.erase config.state⟩

namespace InPlace

theorem lookup_map {α β γ : Type} [BEq α] (f : β → γ) (entries : List (α × β)) (key : α) :
    (entries.map fun entry => (entry.1,f entry.2)).lookup key = (entries.lookup key).map f := by
  induction entries with
  | nil => rfl
  | cons entry rest ih =>
    obtain ⟨first,value⟩ := entry
    simp only [List.map_cons,List.lookup_cons,ih]
    cases key == first <;> rfl

end InPlace
end Memoir
