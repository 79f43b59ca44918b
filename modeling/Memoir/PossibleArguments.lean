import Memoir.KeyFoldingSpec

/-! What key folding takes for the possible arguments of a function. The scan asks every call whether it
calls the function that it is in, so that the calls of other functions are left out. -/
namespace Memoir
namespace KeyFolding
namespace Module

variable (module : Module)

def functionType (function : Nat) : Option Nat := (module.functions[function]?).map (·.functionType)

/-- A call of the function, or an indirect call that may be one by its type. -/
def mayCall (callee : Callee) (function : Nat) : Bool :=
  match callee with
  | .direct calledFunction => calledFunction = function
  | .indirect functionType _ => module.functionType function = some functionType

def calledType : Callee → Option Nat
  | .direct calledFunction => module.functionType calledFunction
  | .indirect functionType _ => some functionType

/-- Only the number of the argument is used. With as many arguments the callee is gathered; a call with
fewer is read past its operands, and nothing is said of the result then. -/
def gatherPossibleArguments (argNo : Nat) : Option (List Value) := module.askedCalls.mapM (passed argNo)

def Passes (location : Location) (callee : Callee) (argNo : Nat) (value : Value) : Prop :=
  ∃ arguments,(location,.call callee arguments) ∈ module.instructions ∧ arguments[argNo]? = some value

/-- A call that may call the function that it is in has the value among its operands as number `argNo`. -/
def Asked (location : Location) (callee : Callee) (argNo : Nat) (value : Value) : Prop :=
  module.mayCall callee location.function ∧
    ∃ arguments,(location,.call callee arguments) ∈ module.instructions ∧
      passed argNo (callee,arguments) = some value

/-- Everything that a call may pass for the argument is gathered, and nothing that is passed to
functions of other types. -/
def SeesArguments (function argNo : Nat) : Prop :=
  ∃ gathered,module.gatherPossibleArguments argNo = some gathered ∧
    (∀ location callee value,module.Passes location callee argNo value →
      module.mayCall callee function → value ∈ gathered) ∧
    ∀ value ∈ gathered,∃ location callee,module.Passes location callee argNo value ∧
      module.calledType callee = module.functionType function

/-- Calls that may call the function that they are in have the operand; what is passed for the argument
is this operand of one of these as well; and what it is of these is passed to a function of the type. -/
structure CallsAgree (function argNo : Nat) : Prop where
  long : ∀ location callee arguments,(location,.call callee arguments) ∈ module.instructions →
    module.mayCall callee location.function → argNo ≤ arguments.length
  asked : ∀ location callee value,module.Passes location callee argNo value →
    module.mayCall callee function → ∃ location' callee',module.Asked location' callee' argNo value
  typed : ∀ location callee value,module.Asked location callee argNo value → ∃ location' callee',
    module.Passes location' callee' argNo value ∧
      module.calledType callee' = module.functionType function

section
variable {module : Module} {argNo : Nat} {gathered : List Value}

theorem filterMap_of_mapM {α β : Type} {f : α → Option β} {items : List α} {results : List β}
    (found : items.mapM f = some results) : items.filterMap f = results := by
  induction items generalizing results with
  | nil => exact Option.some.inj found
  | cons item items ih =>
    simp only [List.mapM_cons,Option.pure_def,Option.bind_eq_bind,Option.bind_eq_some_iff,
      Option.some.injEq] at found
    obtain ⟨result,head,rest,tail,rfl⟩ := found
    rw [List.filterMap_cons_some head,ih tail]

theorem mem_callees (callee : Callee) (function : Nat) :
    function ∈ module.callees callee ↔ module.mayCall callee function := by
  cases callee with
  | direct calledFunction => simp [callees,mayCall,eq_comm]
  | indirect functionType pointer =>
    rw [callees,List.mem_filter,List.mem_range,mayCall,Module.functionType]
    refine ⟨And.right,fun isType => ⟨?_,isType⟩⟩
    obtain ⟨f,found,_⟩ := Option.map_eq_some_iff.mp (of_decide_eq_true isType)
    exact (List.getElem?_eq_some_iff.mp found).1

theorem mem_askedCalls {call : Callee × List Value} : call ∈ module.askedCalls ↔
    ∃ location,(location,.call call.1 call.2) ∈ module.instructions ∧
      module.mayCall call.1 location.function := by
  rw [askedCalls,List.mem_filterMap]
  constructor
  · rintro ⟨⟨location,inst⟩,member,found⟩
    cases inst with
    | call callee arguments =>
      dsimp only at found
      split_ifs at found with calls
      obtain rfl := Option.some.inj found
      exact ⟨location,member,(mem_callees callee location.function).mp calls⟩
    | _ => exact absurd found (by simp)
  · rintro ⟨location,member,calls⟩
    exact ⟨_,member,if_pos ((mem_callees call.1 location.function).mpr calls)⟩

theorem passed_isSome {callee : Callee} {arguments : List Value} :
    (∃ value,passed argNo (callee,arguments) = some value) ↔ argNo ≤ arguments.length := by
  rw [← Option.isSome_iff_exists,passed,isSome_getElem?,List.length_append,List.length_singleton]
  exact Nat.lt_succ_iff

/-- The calls that are asked have the operand. -/
theorem askedCalls_long : (∀ location callee arguments,
    (location,.call callee arguments) ∈ module.instructions →
      module.mayCall callee location.function → argNo ≤ arguments.length) ↔
    ∀ call ∈ module.askedCalls,∃ value,passed argNo call = some value := by
  constructor
  · rintro long ⟨callee,arguments⟩ asked
    obtain ⟨location,member,calls⟩ := mem_askedCalls.mp asked
    exact passed_isSome.mpr (long location callee arguments member calls)
  · intro total location callee arguments member calls
    exact passed_isSome.mp (total (callee,arguments) (mem_askedCalls.mpr ⟨location,member,calls⟩))

theorem gather_spec (gathers : module.gatherPossibleArguments argNo = some gathered) (value : Value) :
    value ∈ gathered ↔ ∃ location callee,module.Asked location callee argNo value := by
  rw [mem_of_mapM gathers]
  constructor
  · rintro ⟨⟨callee,arguments⟩,asked,found⟩
    obtain ⟨location,member,calls⟩ := mem_askedCalls.mp asked
    exact ⟨location,callee,calls,arguments,member,found⟩
  · rintro ⟨location,callee,calls,arguments,member,found⟩
    exact ⟨(callee,arguments),mem_askedCalls.mpr ⟨location,member,calls⟩,found⟩

/-- The analysis of key folding goes on to what is gathered. -/
theorem possibleArguments_eq (gathers : module.gatherPossibleArguments argNo = some gathered) :
    module.possibleArguments argNo = gathered :=
  filterMap_of_mapM gathers

end

/-- Everything that may be passed is gathered, and nothing else, exactly when the calls that are asked
agree with those that should be. -/
theorem seesArguments_iff (module : Module) (function argNo : Nat) :
    module.SeesArguments function argNo ↔ module.CallsAgree function argNo := by
  constructor
  · rintro ⟨gathered,gathers,sees,only⟩
    have members := gather_spec gathers
    refine ⟨askedCalls_long.mpr fun call asked => ?_,?_,?_⟩
    · cases found : passed argNo call with
      | some value => exact ⟨value,rfl⟩
      | none =>
        have nothing : module.gatherPossibleArguments argNo = none := mapM_eq_none.mpr ⟨call,asked,found⟩
        exact absurd (gathers.symm.trans nothing) (by simp)
    · intro location callee value passes calls
      exact (members value).mp (sees location callee value passes calls)
    · intro location callee value asked
      exact only value ((members value).mpr ⟨location,callee,asked⟩)
  · intro agree
    obtain ⟨gathered,gathers,_⟩ := mapM_total (askedCalls_long.mp agree.long)
    have members := gather_spec gathers
    refine ⟨gathered,gathers,?_,?_⟩
    · intro location callee value passes calls
      exact (members value).mpr (agree.asked location callee value passes calls)
    · intro value member
      obtain ⟨location,callee,asked⟩ := (members value).mp member
      exact agree.typed location callee value asked

/-- A function that passes a constant to another one. -/
def passing : Module where
  functions := [⟨0,1,[]⟩,⟨1,0,[⟨[.call (.direct 0) [.constant 5]],.ret none⟩]⟩]
  indexFunctions := []

/-- Nothing is gathered of what is passed. -/
theorem passing_not_seesArguments : ¬ passing.SeesArguments 0 0 := by
  rintro ⟨gathered,gathers,sees,_⟩
  obtain rfl : [] = gathered := Option.some.inj gathers
  have passes : passing.Passes ⟨1,0,0⟩ (.direct 0) 0 (.constant 5) :=
    ⟨[.constant 5],List.mem_cons_self,rfl⟩
  exact absurd (sees _ _ _ passes rfl) List.not_mem_nil

end Module
end KeyFolding
end Memoir
