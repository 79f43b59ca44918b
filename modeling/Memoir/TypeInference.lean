import Mathlib.Data.Fintype.Card
import Mathlib.Data.Fintype.EquivFin
import Mathlib.Data.Finset.Lattice.Fold
import Mathlib.Logic.Function.Basic
import Mathlib.Logic.Relation

/-! The inference of the types of arguments and of returned values, and the annotations that it adds. An
argument that the type analysis cannot type is looked for in the calls of its function, whose functions
are inferred first. -/
namespace Memoir
namespace TypeInference

abbrev Value := Nat

inductive LlvmKind
  | collection
  | struct
  | other
  deriving DecidableEq

inductive ArgumentUser (τ : Type)
  | assertCollectionType (type : τ)
  | assertStructType (type : τ)
  | other

structure Argument (τ : Type) where
  value : Value
  kind : LlvmKind
  users : List (ArgumentUser τ)

inductive Inst (τ : Type)
  | phi
  | returnType (type : τ)
  | other

/-- The value that is returned, where the block ends in a return of one. -/
structure Block (τ : Type) where
  insts : List (Inst τ)
  returned : Option Value

/-- A call may use a function as its callee or as an operand. -/
inductive FunctionUser
  | call (caller : Nat) (operands : List Value)
  | other

structure Function (τ : Type) where
  arguments : List (Argument τ)
  returnKind : LlvmKind
  blocks : List (Block τ)
  users : List FunctionUser

section
variable {τ : Type}

def Argument.findAssert (argument : Argument τ) (asserted : ArgumentUser τ → Option τ) : Option τ :=
  argument.users.findSome? asserted

def ArgumentUser.collectionType : ArgumentUser τ → Option τ
  | .assertCollectionType type => some type
  | _ => none

def ArgumentUser.structType : ArgumentUser τ → Option τ
  | .assertStructType type => some type
  | _ => none

/-- An argument that needs no annotation counts as annotated, without a type. -/
def Argument.hasTypeAnnotation (argument : Argument τ) : Bool × Option τ :=
  match argument.kind with
  | .other => (true,none)
  | .collection =>
    match argument.findAssert ArgumentUser.collectionType with
    | some type => (true,some type)
    | none => (false,none)
  | .struct =>
    match argument.findAssert ArgumentUser.structType with
    | some type => (true,some type)
    | none => (false,none)

def Inst.annotation : Inst τ → Option τ
  | .returnType type => some type
  | _ => none

def Function.returnAnnotations (function : Function τ) : List τ :=
  function.blocks.flatMap fun block => block.insts.filterMap Inst.annotation

/-- The test is the other way round: a collection or a struct counts as annotated. -/
def Function.hasReturnTypeAnnotation (function : Function τ) : Bool × Option τ :=
  if function.returnKind = .collection ∨ function.returnKind = .struct then (true,none)
  else match function.returnAnnotations.head? with
    | some type => (true,some type)
    | none => (false,none)

end

/-- The functions of calls exist. A call that uses a function has an operand for each of its arguments
that lacks an annotation: otherwise the operands would be read past their end. -/
structure Module (τ : Type) where
  functions : List (Function τ)
  linked : ∀ function ∈ functions,∀ caller operands,.call caller operands ∈ function.users →
    caller < functions.length
  long : ∀ function ∈ functions,∀ number argument,function.arguments[number]? = some argument →
    argument.hasTypeAnnotation.1 = false → ∀ caller operands,.call caller operands ∈ function.users →
    number < operands.length

structure State (τ : Type) where
  argumentTypes : Nat × Nat → Option τ
  returnTypes : Nat → Option τ

section
variable {τ : Type}

def State.empty : State τ := ⟨fun _ => none,fun _ => none⟩

def State.typeArgument (state : State τ) (argument : Nat × Nat) (type : τ) : State τ :=
  { state with argumentTypes := Function.update state.argumentTypes argument (some type) }

def State.typeReturn (state : State τ) (function : Nat) (type : τ) : State τ :=
  { state with returnTypes := Function.update state.returnTypes function (some type) }

-- The types that the type analysis gives.
variable (typeOf : Value → Option τ)

/-- The calls are read until one passes a typed operand. The function of a call is inferred before the
operand is asked. -/
def inferFromCallers (infer : Nat → State τ → Option (State τ)) (function number : Nat) :
    List FunctionUser → State τ → Option (State τ)
  | [],state => some state
  | .other :: users,state => inferFromCallers infer function number users state
  | .call caller operands :: users,state => do
    let state ← infer caller state
    match operands[number]?.bind typeOf with
    | some type => some (state.typeArgument (function,number) type)
    | none => inferFromCallers infer function number users state

def inferArgumentType (infer : Nat → State τ → Option (State τ)) (users : List FunctionUser)
    (function number : Nat) (argument : Argument τ) (state : State τ) : Option (State τ) :=
  if argument.hasTypeAnnotation.1 then some state
  else match typeOf argument.value with
    | some type => some (state.typeArgument (function,number) type)
    | none => inferFromCallers typeOf infer function number users state

def Function.returnedType (function : Function τ) : Option τ :=
  function.blocks.findSome? fun block => block.returned.bind typeOf

def inferReturnType (index : Nat) (function : Function τ) (state : State τ) : State τ :=
  if function.hasReturnTypeAnnotation.1 then state
  else match function.returnedType typeOf with
    | some type => state.typeReturn index type
    | none => state

def inferArguments (infer : Nat → State τ → Option (State τ)) (users : List FunctionUser)
    (function : Nat) : List (Argument τ × Nat) → State τ → Option (State τ)
  | [],state => some state
  | (argument,number) :: arguments,state => do
    let state ← inferArgumentType typeOf infer users function number argument state
    inferArguments infer users function arguments state

/-- The rounds bound the depth of the recursion. -/
def inferFunction (module : Module τ) : Nat → Nat → State τ → Option (State τ)
  | 0,_,_ => none
  | rounds + 1,index,state =>
    match module.functions[index]? with
    | none => some state
    | some function => do
      let state ← inferArguments typeOf (inferFunction module rounds) function.users index
        function.arguments.zipIdx state
      return inferReturnType typeOf index function state

def inferFunctions (module : Module τ) (rounds : Nat) : List Nat → State τ → Option (State τ)
  | [],state => some state
  | index :: indices,state => do
    let state ← inferFunction typeOf module rounds index state
    inferFunctions module rounds indices state

def inferModule (module : Module τ) (rounds : Nat) : Option (State τ) :=
  inferFunctions typeOf module rounds (List.range module.functions.length) State.empty

def askedCallers (number : Nat) : List FunctionUser → List Nat
  | [] => []
  | .other :: users => askedCallers number users
  | .call caller operands :: users =>
    match operands[number]?.bind typeOf with
    | some _ => [caller]
    | none => caller :: askedCallers number users

def Asks (module : Module τ) (index caller : Nat) : Prop :=
  ∃ function number argument,module.functions[index]? = some function ∧
    function.arguments[number]? = some argument ∧ argument.hasTypeAnnotation.1 = false ∧
    typeOf argument.value = none ∧ caller ∈ askedCallers typeOf number function.users

def Terminates (module : Module τ) : Prop :=
  ∃ rounds state,inferModule typeOf module rounds = some state

/-- Behind the PHIs of the entry block. -/
def insertAtEntry (insts : List (Inst τ)) : List (Block τ) → List (Block τ)
  | [] => []
  | block :: blocks =>
    let phis := block.insts.takeWhile fun | .phi => true | _ => false
    let rest := block.insts.dropWhile fun | .phi => true | _ => false
    { block with insts := phis ++ insts ++ rest } :: blocks

/-- The type instructions and the assertion of the type, which is of a struct or of a collection. A
declaration is left as it is. -/
def Function.annotateArgumentType (asserted : τ → ArgumentUser τ) (number : Nat) (type : τ)
    (function : Function τ) : Function τ :=
  if function.blocks.isEmpty then function
  else { function with
    arguments := function.arguments.modify number fun argument =>
      { argument with users := asserted type :: argument.users }
    blocks := insertAtEntry [.other,.other] function.blocks }

def Function.annotateReturnType (type : τ) (function : Function τ) : Function τ :=
  if function.blocks.isEmpty then function
  else { function with blocks := insertAtEntry [.other,.returnType type] function.blocks }

def annotateArguments (asserted : τ → ArgumentUser τ) (state : State τ) (index : Nat) :
    List Nat → Function τ → Function τ
  | [],function => function
  | number :: numbers,function =>
    match state.argumentTypes (index,number) with
    | some type => annotateArguments asserted state index numbers
        (function.annotateArgumentType asserted number type)
    | none => annotateArguments asserted state index numbers function

def annotateFunction (asserted : τ → ArgumentUser τ) (state : State τ) (index : Nat)
    (function : Function τ) : Function τ :=
  let function := annotateArguments asserted state index (List.range function.arguments.length) function
  match state.returnTypes index with
  | some type => function.annotateReturnType type
  | none => function

def run (asserted : τ → ArgumentUser τ) (module : Module τ) (rounds : Nat) :
    Option (List (Function τ)) := do
  let state ← inferModule typeOf module rounds
  return module.functions.mapIdx (annotateFunction asserted state)

def Function.returned (function : Function τ) : List Value :=
  function.blocks.filterMap Block.returned

/-- An annotation of the returned value is added where it is needed, and it is right. -/
structure Annotates (before after : Function τ) : Prop where
  added : (∃ type,after.returnAnnotations = type :: before.returnAnnotations) ↔
    before.returnKind ≠ .other ∧ before.returnAnnotations = [] ∧
      ∃ value ∈ before.returned,typeOf value ≠ none
  typed : ∀ type,after.returnAnnotations = type :: before.returnAnnotations →
    ∃ value ∈ before.returned,typeOf value = some type

def Module.returnType (module : Module τ) (index : Nat) : Option τ :=
  (module.functions[index]?).bind fun function =>
    if function.hasReturnTypeAnnotation.1 then none else function.returnedType typeOf

def Grows (module : Module τ) (before after : State τ) : Prop :=
  ∀ index,after.returnTypes index = before.returnTypes index ∨
    after.returnTypes index = module.returnType typeOf index

def Ends (module : Module τ) (rounds index : Nat) : Prop :=
  ∃ before after,inferFunction typeOf module rounds index before = some after

end

section Termination
variable {τ : Type} {typeOf : Value → Option τ} {module : Module τ}

section
variable {infer : Nat → State τ → Option (State τ)} {function number : Nat} {users : List FunctionUser}

theorem inferFromCallers_isSome
    (ends : ∀ caller ∈ askedCallers typeOf number users,∀ state,(infer caller state).isSome)
    (state : State τ) : (inferFromCallers typeOf infer function number users state).isSome := by
  induction users generalizing state with
  | nil => rfl
  | cons user users ih =>
    cases user with
    | other => exact ih ends state
    | call caller operands =>
      have first : caller ∈ askedCallers typeOf number (.call caller operands :: users) := by
        rw [askedCallers]
        split <;> exact List.mem_cons_self
      obtain ⟨after,inferred⟩ := Option.isSome_iff_exists.mp (ends caller first state)
      simp only [inferFromCallers,inferred,Option.bind_eq_bind,Option.bind_some]
      cases typed : operands[number]?.bind typeOf with
      | some type => rfl
      | none =>
        apply ih
        intro other asked
        apply ends other
        simp only [askedCallers,typed]
        exact List.mem_cons_of_mem _ asked

theorem infer_of_inferFromCallers {before after : State τ}
    (inferred : inferFromCallers typeOf infer function number users before = some after) :
    ∀ caller ∈ askedCallers typeOf number users,∃ state state',infer caller state = some state' := by
  induction users generalizing before with
  | nil => exact fun _ asked => absurd asked List.not_mem_nil
  | cons user users ih =>
    cases user with
    | other => exact ih inferred
    | call caller operands =>
      simp only [inferFromCallers,Option.bind_eq_bind,Option.bind_eq_some_iff] at inferred
      obtain ⟨middle,first,inferred⟩ := inferred
      intro other asked
      cases typed : operands[number]?.bind typeOf with
      | some type =>
        simp only [askedCallers,typed,List.mem_singleton] at asked
        exact asked ▸ ⟨before,middle,first⟩
      | none =>
        simp only [askedCallers,typed,List.mem_cons] at asked
        rcases asked with rfl | asked
        · exact ⟨before,middle,first⟩
        · simp only [typed] at inferred
          exact ih inferred other asked

theorem inferArguments_isSome {arguments : List (Argument τ × Nat)}
    (ends : ∀ argument number,(argument,number) ∈ arguments → argument.hasTypeAnnotation.1 = false →
      typeOf argument.value = none → ∀ caller ∈ askedCallers typeOf number users,∀ state,
        (infer caller state).isSome) (state : State τ) :
    (inferArguments typeOf infer users function arguments state).isSome := by
  induction arguments generalizing state with
  | nil => rfl
  | cons argument arguments ih =>
    obtain ⟨argument,number⟩ := argument
    have first : (inferArgumentType typeOf infer users function number argument state).isSome := by
      rw [inferArgumentType]
      split_ifs with annotated
      · rfl
      · cases typed : typeOf argument.value with
        | some type => rfl
        | none =>
          exact inferFromCallers_isSome
            (ends argument number List.mem_cons_self (by simpa using annotated) typed) state
    obtain ⟨after,inferred⟩ := Option.isSome_iff_exists.mp first
    simp only [inferArguments,inferred,Option.bind_eq_bind,Option.bind_some]
    exact ih (fun other number' mem => ends other number' (List.mem_cons_of_mem _ mem)) after

theorem infer_of_inferArguments {arguments : List (Argument τ × Nat)} {before after : State τ}
    (inferred : inferArguments typeOf infer users function arguments before = some after) :
    ∀ argument number,(argument,number) ∈ arguments → argument.hasTypeAnnotation.1 = false →
      typeOf argument.value = none → ∀ caller ∈ askedCallers typeOf number users,
        ∃ state state',infer caller state = some state' := by
  induction arguments generalizing before with
  | nil => exact fun _ _ mem => absurd mem List.not_mem_nil
  | cons first arguments ih =>
    obtain ⟨first,position⟩ := first
    simp only [inferArguments,Option.bind_eq_bind,Option.bind_eq_some_iff] at inferred
    obtain ⟨middle,ofFirst,inferred⟩ := inferred
    intro argument number mem unannotated untyped
    rcases List.mem_cons.mp mem with same | mem
    · obtain ⟨rfl,rfl⟩ := Prod.mk.inj same
      rw [inferArgumentType,if_neg (by simp [unannotated]),untyped] at ofFirst
      exact infer_of_inferFromCallers ofFirst
    · exact ih inferred argument number mem unannotated untyped

end

theorem Asks.caller_lt {index caller : Nat} (asks : Asks typeOf module index caller) :
    caller < module.functions.length := by
  obtain ⟨function,number,_,found,_,_,_,asked⟩ := asks
  have call : ∀ users,caller ∈ askedCallers typeOf number users →
      ∃ operands,.call caller operands ∈ users := by
    intro users asked
    induction users with
    | nil => exact absurd asked List.not_mem_nil
    | cons user users ih =>
      have rest : ∀ user',caller ∈ askedCallers typeOf number users →
          ∃ operands,.call caller operands ∈ user' :: users := by
        intro user' asked
        obtain ⟨operands,mem⟩ := ih asked
        exact ⟨operands,List.mem_cons_of_mem _ mem⟩
      cases user with
      | other => exact rest _ asked
      | call other operands =>
        rw [askedCallers] at asked
        split at asked
        · rw [List.mem_singleton] at asked
          exact ⟨operands,asked ▸ List.mem_cons_self⟩
        · rcases List.mem_cons.mp asked with rfl | asked
          · exact ⟨operands,List.mem_cons_self⟩
          · exact rest _ asked
  obtain ⟨operands,mem⟩ := call function.users asked
  exact module.linked function (List.mem_of_getElem? found) caller operands mem

theorem Ends.asked {rounds index caller : Nat} (ends : Ends typeOf module (rounds + 1) index)
    (asks : Asks typeOf module index caller) : Ends typeOf module rounds caller := by
  obtain ⟨before,after,inferred⟩ := ends
  obtain ⟨function,number,argument,found,isArgument,unannotated,untyped,asked⟩ := asks
  simp only [inferFunction,found,Option.bind_eq_bind,Option.bind_eq_some_iff] at inferred
  obtain ⟨middle,ofArguments,_⟩ := inferred
  exact infer_of_inferArguments ofArguments argument number
    (List.mk_mem_zipIdx_iff_getElem?.mpr isArgument) unannotated untyped caller asked

theorem inferFunction_isSome {rounds index : Nat}
    (ends : ∀ caller,Asks typeOf module index caller → ∀ state,
      (inferFunction typeOf module rounds caller state).isSome) (state : State τ) :
    (inferFunction typeOf module (rounds + 1) index state).isSome := by
  rw [inferFunction]
  cases found : module.functions[index]? with
  | none => rfl
  | some function =>
    have arguments : (inferArguments typeOf (inferFunction typeOf module rounds) function.users index
        function.arguments.zipIdx state).isSome := by
      apply inferArguments_isSome
      intro argument number mem unannotated untyped caller asked
      exact ends caller ⟨function,number,argument,found,List.mk_mem_zipIdx_iff_getElem?.mp mem,
        unannotated,untyped,asked⟩
    obtain ⟨after,inferred⟩ := Option.isSome_iff_exists.mp arguments
    simp [inferred]

/-- What is to be annotated so far decides nothing: a function whose inference ends once ends always. -/
theorem Ends.isSome {rounds index : Nat} (ends : Ends typeOf module rounds index) (state : State τ) :
    (inferFunction typeOf module rounds index state).isSome := by
  induction rounds generalizing index state with
  | zero =>
    obtain ⟨_,_,inferred⟩ := ends
    exact absurd inferred (by simp [inferFunction])
  | succ rounds ih => exact inferFunction_isSome (fun caller asks => ih (ends.asked asks)) state

theorem ends_of_asked {rounds index : Nat}
    (asked : ∀ caller,Asks typeOf module index caller → Ends typeOf module rounds caller) :
    Ends typeOf module (rounds + 1) index := by
  obtain ⟨after,inferred⟩ := Option.isSome_iff_exists.mp
    (inferFunction_isSome (fun caller asks => (asked caller asks).isSome) State.empty)
  exact ⟨_,after,inferred⟩

theorem Ends.succ {rounds index : Nat} (ends : Ends typeOf module rounds index) :
    Ends typeOf module (rounds + 1) index := by
  induction rounds generalizing index with
  | zero =>
    obtain ⟨_,_,inferred⟩ := ends
    exact absurd inferred (by simp [inferFunction])
  | succ rounds ih => exact ends_of_asked fun caller asks => ih (ends.asked asks)

theorem Ends.le {rounds rounds' index : Nat} (ends : Ends typeOf module rounds index)
    (le : rounds ≤ rounds') : Ends typeOf module rounds' index := by
  induction le with
  | refl => exact ends
  | step _ ih => exact ih.succ

/-- A function that is inferred for itself again is inferred at every depth. -/
theorem Ends.acyclic {rounds index : Nat} (ends : Ends typeOf module rounds index) :
    ¬ Relation.TransGen (Asks typeOf module) index index := by
  induction rounds generalizing index with
  | zero =>
    obtain ⟨_,_,inferred⟩ := ends
    exact absurd inferred (by simp [inferFunction])
  | succ rounds ih =>
    intro cycle
    obtain ⟨caller,asks,back⟩ := Relation.TransGen.head'_iff.mp cycle
    exact ih (ends.asked asks) (Relation.TransGen.tail' back asks)

/-- By induction along the functions that are asked, of which there are finitely many. -/
theorem exists_ends (acyclic : ∀ index,¬ Relation.TransGen (Asks typeOf module) index index)
    (index : Fin module.functions.length) : ∃ rounds,Ends typeOf module rounds index := by
  let Below (caller index : Fin module.functions.length) : Prop :=
    Relation.TransGen (Asks typeOf module) index caller
  have wellFounded : WellFounded Below := by
    have irrefl : Std.Irrefl Below := ⟨fun index => acyclic index⟩
    have trans : IsTrans (Fin module.functions.length) Below := ⟨fun _ _ _ first second => second.trans first⟩
    exact Finite.wellFounded_of_trans_of_irrefl Below
  induction index using wellFounded.induction with
  | _ index ih =>
    have depth : ∀ caller : Fin module.functions.length,∃ rounds,
        Asks typeOf module index caller → Ends typeOf module rounds caller := by
      intro caller
      by_cases asks : Asks typeOf module index caller
      · obtain ⟨rounds,ends⟩ := ih caller (Relation.TransGen.single asks)
        exact ⟨rounds,fun _ => ends⟩
      · exact ⟨0,fun isAsked => absurd isAsked asks⟩
    choose rounds ends using depth
    refine ⟨Finset.univ.sup rounds + 1,ends_of_asked fun caller asks => ?_⟩
    exact (ends ⟨caller,asks.caller_lt⟩ asks).le (Finset.le_sup (Finset.mem_univ _))

theorem inferFunctions_isSome {rounds : Nat} {indices : List Nat}
    (ends : ∀ index ∈ indices,Ends typeOf module rounds index) (state : State τ) :
    (inferFunctions typeOf module rounds indices state).isSome := by
  induction indices generalizing state with
  | nil => rfl
  | cons index indices ih =>
    obtain ⟨after,inferred⟩ := Option.isSome_iff_exists.mp
      ((ends index List.mem_cons_self).isSome state)
    simp only [inferFunctions,inferred,Option.bind_eq_bind,Option.bind_some]
    exact ih (fun other mem => ends other (List.mem_cons_of_mem _ mem)) after

theorem ends_of_inferFunctions {rounds : Nat} {indices : List Nat} {before after : State τ}
    (inferred : inferFunctions typeOf module rounds indices before = some after) :
    ∀ index ∈ indices,Ends typeOf module rounds index := by
  induction indices generalizing before with
  | nil => exact fun _ mem => absurd mem List.not_mem_nil
  | cons first indices ih =>
    simp only [inferFunctions,Option.bind_eq_bind,Option.bind_eq_some_iff] at inferred
    obtain ⟨middle,ofFirst,inferred⟩ := inferred
    intro index mem
    rcases List.mem_cons.mp mem with rfl | mem
    · exact ⟨before,middle,ofFirst⟩
    · exact ih inferred index mem

/-- The inference ends just when no function is inferred for itself. -/
theorem terminates_iff (typeOf : Value → Option τ) (module : Module τ) :
    Terminates typeOf module ↔ ∀ index,¬ Relation.TransGen (Asks typeOf module) index index := by
  constructor
  · rintro ⟨rounds,state,inferred⟩ index cycle
    obtain ⟨caller,⟨_,_,_,found,_⟩,_⟩ := Relation.TransGen.head'_iff.mp cycle
    have known := (List.getElem?_eq_some_iff.mp found).1
    exact (ends_of_inferFunctions inferred index (List.mem_range.mpr known)).acyclic cycle
  · intro acyclic
    choose rounds ends using exists_ends acyclic
    refine ⟨Finset.univ.sup rounds,Option.isSome_iff_exists.mp (inferFunctions_isSome ?_ _)⟩
    intro index mem
    exact (ends ⟨index,List.mem_range.mp mem⟩).le (Finset.le_sup (Finset.mem_univ _))

/-- A function that calls itself, whose collection argument has no type. -/
def recursive : Module Unit where
  functions := [⟨[⟨0,.collection,[]⟩],.other,[⟨[.other],none⟩],[.call 0 [0]]⟩]
  linked := by simp
  long := by
    intro function mem number argument isArgument _ caller operands call
    rw [List.mem_singleton] at mem
    obtain rfl := mem
    obtain ⟨rfl,rfl⟩ : caller = 0 ∧ operands = [0] := by simpa using call
    exact (List.getElem?_eq_some_iff.mp isArgument).1

theorem recursive_not_terminates : ¬ Terminates (fun _ => none) recursive := by
  rintro ⟨rounds,state,inferred⟩
  have ends := ends_of_inferFunctions inferred 0 (List.mem_range.mpr (Nat.zero_lt_one))
  exact ends.acyclic (.single ⟨_,0,_,rfl,rfl,rfl,rfl,List.mem_singleton_self 0⟩)

end Termination

section Returns
variable {τ : Type} {typeOf : Value → Option τ} {module : Module τ} {before after : State τ}

theorem Grows.refl (state : State τ) : Grows typeOf module state state := fun _ => .inl rfl

theorem Grows.trans {state : State τ} (first : Grows typeOf module before state)
    (second : Grows typeOf module state after) : Grows typeOf module before after := by
  intro index
  rcases second index with same | found
  · rw [same]
    exact first index
  · exact .inr found

theorem Grows.typeArgument (grows : Grows typeOf module before after) (argument : Nat × Nat) (type : τ) :
    Grows typeOf module before (after.typeArgument argument type) := grows

theorem inferFromCallers_grows {infer : Nat → State τ → Option (State τ)}
    (ofInfer : ∀ caller before after,infer caller before = some after → Grows typeOf module before after)
    {function number : Nat} {users : List FunctionUser}
    (inferred : inferFromCallers typeOf infer function number users before = some after) :
    Grows typeOf module before after := by
  induction users generalizing before with
  | nil => exact Option.some.inj inferred ▸ Grows.refl before
  | cons user users ih =>
    cases user with
    | other => exact ih inferred
    | call caller operands =>
      simp only [inferFromCallers,Option.bind_eq_bind,Option.bind_eq_some_iff] at inferred
      obtain ⟨middle,first,inferred⟩ := inferred
      have grows := ofInfer caller before middle first
      cases typed : operands[number]?.bind typeOf with
      | some type =>
        simp only [typed,Option.some.injEq] at inferred
        exact inferred ▸ grows.typeArgument _ type
      | none =>
        simp only [typed] at inferred
        exact grows.trans (ih inferred)

theorem inferArguments_grows {infer : Nat → State τ → Option (State τ)}
    (ofInfer : ∀ caller before after,infer caller before = some after → Grows typeOf module before after)
    {function : Nat} {users : List FunctionUser} {arguments : List (Argument τ × Nat)}
    (inferred : inferArguments typeOf infer users function arguments before = some after) :
    Grows typeOf module before after := by
  induction arguments generalizing before with
  | nil => exact Option.some.inj inferred ▸ Grows.refl before
  | cons argument arguments ih =>
    obtain ⟨argument,number⟩ := argument
    simp only [inferArguments,Option.bind_eq_bind,Option.bind_eq_some_iff] at inferred
    obtain ⟨middle,first,inferred⟩ := inferred
    apply Grows.trans _ (ih inferred)
    rw [inferArgumentType] at first
    split_ifs at first with annotated
    · exact Option.some.inj first ▸ Grows.refl before
    · cases typed : typeOf argument.value with
      | some type =>
        simp only [typed,Option.some.injEq] at first
        exact first ▸ (Grows.refl before).typeArgument _ type
      | none =>
        simp only [typed] at first
        exact inferFromCallers_grows ofInfer first

theorem inferReturnType_grows {index : Nat} {function : Function τ}
    (found : module.functions[index]? = some function) (state : State τ) :
    Grows typeOf module state (inferReturnType typeOf index function state) ∧
      ∀ type,module.returnType typeOf index = some type →
        (inferReturnType typeOf index function state).returnTypes index = some type := by
  have type : module.returnType typeOf index =
      if function.hasReturnTypeAnnotation.1 then none else function.returnedType typeOf := by
    rw [Module.returnType,found,Option.bind_some]
  rw [inferReturnType,type]
  split_ifs with annotated
  · exact ⟨Grows.refl state,by simp⟩
  · cases returned : function.returnedType typeOf with
    | none => exact ⟨Grows.refl state,by simp⟩
    | some returnedType =>
      refine ⟨fun other => ?_,fun type same => ?_⟩
      · by_cases same : other = index
        · subst same
          right
          rw [type,if_neg annotated,returned]
          exact Function.update_self ..
        · exact .inl (Function.update_of_ne same ..)
      · exact same ▸ Function.update_self ..

/-- A function is inferred with all that it asks for, and its returned type is noted. -/
theorem inferFunction_returns {rounds index : Nat}
    (inferred : inferFunction typeOf module rounds index before = some after) :
    Grows typeOf module before after ∧
      ∀ type,module.returnType typeOf index = some type → after.returnTypes index = some type := by
  induction rounds generalizing index before after with
  | zero => exact absurd inferred (by simp [inferFunction])
  | succ rounds ih =>
    rw [inferFunction] at inferred
    cases found : module.functions[index]? with
    | none =>
      simp only [found,Option.some.injEq] at inferred
      refine ⟨inferred ▸ Grows.refl before,fun type is => ?_⟩
      rw [Module.returnType,found] at is
      exact absurd is (by simp)
    | some function =>
      simp only [found,Option.bind_eq_bind,Option.bind_eq_some_iff,Option.pure_def,
        Option.some.injEq] at inferred
      obtain ⟨middle,ofArguments,rfl⟩ := inferred
      have grows := inferArguments_grows (fun caller before after inferred => (ih inferred).1) ofArguments
      have returns := @inferReturnType_grows τ typeOf module _ _ found middle
      exact ⟨grows.trans returns.1,returns.2⟩

theorem inferFunctions_returns {rounds : Nat} {indices : List Nat}
    (inferred : inferFunctions typeOf module rounds indices before = some after) :
    Grows typeOf module before after ∧ ∀ index ∈ indices,∀ type,
      module.returnType typeOf index = some type → after.returnTypes index = some type := by
  induction indices generalizing before with
  | nil => exact ⟨Option.some.inj inferred ▸ Grows.refl before,fun _ mem => absurd mem List.not_mem_nil⟩
  | cons first indices ih =>
    simp only [inferFunctions,Option.bind_eq_bind,Option.bind_eq_some_iff] at inferred
    obtain ⟨middle,ofFirst,inferred⟩ := inferred
    have ofFirst := inferFunction_returns ofFirst
    have ofRest := ih inferred
    refine ⟨ofFirst.1.trans ofRest.1,fun index mem type is => ?_⟩
    rcases List.mem_cons.mp mem with rfl | mem
    · rcases ofRest.1 index with same | found
      · exact same.trans (ofFirst.2 type is)
      · exact found.trans is
    · exact ofRest.2 index mem type is

theorem inferModule_returns {rounds : Nat} {state : State τ}
    (inferred : inferModule typeOf module rounds = some state) (index : Nat) :
    state.returnTypes index = module.returnType typeOf index := by
  have returns := inferFunctions_returns inferred
  cases is : module.returnType typeOf index with
  | none =>
    rcases returns.1 index with same | found
    · exact same
    · exact found.trans is
  | some type =>
    apply returns.2 index _ type is
    obtain ⟨function,found,_⟩ := Option.bind_eq_some_iff.mp is
    exact List.mem_range.mpr (List.getElem?_eq_some_iff.mp found).1

theorem insertAtEntry_annotations (insts : List (Inst τ)) {blocks : List (Block τ)}
    (defined : blocks ≠ []) :
    ((insertAtEntry insts blocks).flatMap fun block => block.insts.filterMap Inst.annotation) =
      insts.filterMap Inst.annotation ++ blocks.flatMap fun block => block.insts.filterMap Inst.annotation := by
  obtain ⟨block,blocks,rfl⟩ := List.exists_cons_of_ne_nil defined
  have phis : ∀ insts : List (Inst τ),
      (insts.takeWhile fun | .phi => true | _ => false).filterMap Inst.annotation = [] := by
    intro insts
    induction insts with
    | nil => rfl
    | cons inst insts ih =>
      cases inst with
      | phi => exact ih
      | returnType type => rfl
      | other => rfl
  have split := congrArg (List.filterMap Inst.annotation)
    (block.insts.takeWhile_append_dropWhile (p := fun | .phi => true | _ => false))
  rw [List.filterMap_append,phis,List.nil_append] at split
  simp only [insertAtEntry,List.flatMap_cons,List.filterMap_append,phis,split,List.nil_append,
    List.append_assoc]

theorem annotateReturnType_annotations (type : τ) {function : Function τ} (defined : function.blocks ≠ []) :
    (function.annotateReturnType type).returnAnnotations = type :: function.returnAnnotations := by
  rw [Function.annotateReturnType,if_neg (by simpa using defined)]
  exact insertAtEntry_annotations _ defined

theorem annotateArgumentType_annotations (asserted : τ → ArgumentUser τ) (number : Nat) (type : τ)
    (function : Function τ) :
    (function.annotateArgumentType asserted number type).returnAnnotations = function.returnAnnotations ∧
      ((function.annotateArgumentType asserted number type).blocks = [] ↔ function.blocks = []) := by
  rw [Function.annotateArgumentType]
  split_ifs with declared
  · exact ⟨rfl,Iff.rfl⟩
  · have defined : function.blocks ≠ [] := by simpa using declared
    refine ⟨insertAtEntry_annotations _ defined,?_⟩
    obtain ⟨block,blocks,is⟩ := List.exists_cons_of_ne_nil defined
    simp [is,insertAtEntry]

theorem annotateArguments_annotations (asserted : τ → ArgumentUser τ) (state : State τ) (index : Nat)
    (numbers : List Nat) (function : Function τ) :
    (annotateArguments asserted state index numbers function).returnAnnotations =
        function.returnAnnotations ∧
      ((annotateArguments asserted state index numbers function).blocks = [] ↔ function.blocks = []) := by
  induction numbers generalizing function with
  | nil => exact ⟨rfl,Iff.rfl⟩
  | cons number numbers ih =>
    rw [annotateArguments]
    split
    · rename_i type _
      have first := annotateArgumentType_annotations asserted number type function
      have rest := ih (function.annotateArgumentType asserted number type)
      exact ⟨rest.1.trans first.1,rest.2.trans first.2⟩
    · exact ih function

/-- The annotation that is noted is added to a function that has a body. -/
theorem annotateFunction_annotations (asserted : τ → ArgumentUser τ) (state : State τ) (index : Nat)
    {function : Function τ} (defined : function.blocks ≠ []) :
    (annotateFunction asserted state index function).returnAnnotations =
      (state.returnTypes index).toList ++ function.returnAnnotations := by
  have arguments := annotateArguments_annotations asserted state index
    (List.range function.arguments.length) function
  rw [annotateFunction]
  cases state.returnTypes index with
  | none => exact arguments.1
  | some type =>
    rw [annotateReturnType_annotations type (fun declared => defined (arguments.2.mp declared)),arguments.1]
    rfl

theorem returnedType_eq_some {function : Function τ} {type : τ}
    (is : function.returnedType typeOf = some type) : ∃ value ∈ function.returned,typeOf value = some type := by
  obtain ⟨block,mem,found⟩ := List.exists_of_findSome?_eq_some is
  obtain ⟨value,returned,typed⟩ := Option.bind_eq_some_iff.mp found
  exact ⟨value,List.mem_filterMap.mpr ⟨block,mem,returned⟩,typed⟩

theorem returnedType_ne_none {function : Function τ} :
    function.returnedType typeOf ≠ none ↔ ∃ value ∈ function.returned,typeOf value ≠ none := by
  constructor
  · intro found
    obtain ⟨type,is⟩ := Option.ne_none_iff_exists'.mp found
    obtain ⟨value,mem,typed⟩ := returnedType_eq_some is
    exact ⟨value,mem,by simp [typed]⟩
  · rintro ⟨value,mem,typed⟩ none
    obtain ⟨block,mem,returned⟩ := List.mem_filterMap.mp mem
    have untyped := List.findSome?_eq_none_iff.mp none block mem
    rw [returned,Option.bind_some] at untyped
    exact typed untyped

theorem hasReturnTypeAnnotation_eq_true {function : Function τ} :
    function.hasReturnTypeAnnotation.1 = true ↔
      function.returnKind ≠ .other ∨ function.returnAnnotations ≠ [] := by
  rw [Function.hasReturnTypeAnnotation]
  cases function.returnKind <;> cases function.returnAnnotations <;> simp

theorem added_iff {type : Option τ} {annotations : List τ} :
    (∃ added,type.toList ++ annotations = added :: annotations) ↔ type ≠ none := by
  cases type <;> simp

/-- The decision of the code is right for a function just when there is nothing to decide by its body:
where there is, the kind of what is returned decides the wrong way. -/
theorem annotates_iff {index : Nat} {function annotated : Function τ}
    (found : module.functions[index]? = some function)
    (after : annotated.returnAnnotations =
      (module.returnType typeOf index).toList ++ function.returnAnnotations) :
    Annotates typeOf function annotated ↔
      function.returnAnnotations ≠ [] ∨ ∀ value ∈ function.returned,typeOf value = none := by
  have type : module.returnType typeOf index =
      if function.hasReturnTypeAnnotation.1 then none else function.returnedType typeOf := by
    rw [Module.returnType,found,Option.bind_some]
  constructor
  · intro annotates
    by_contra neither
    simp only [not_or,not_not,not_forall] at neither
    obtain ⟨bare,value,mem,typed⟩ := neither
    have returned : ∃ value ∈ function.returned,typeOf value ≠ none := ⟨value,mem,typed⟩
    have added := annotates.added
    rw [after,added_iff,type] at added
    by_cases other : function.returnKind = .other
    · have unannotated : function.hasReturnTypeAnnotation.1 ≠ true := by
        rw [Ne,hasReturnTypeAnnotation_eq_true]
        simp [other,bare]
      rw [if_neg unannotated] at added
      exact (added.mp (returnedType_ne_none.mpr returned)).1 other
    · have needed := added.mpr ⟨other,bare,returned⟩
      rw [if_pos (hasReturnTypeAnnotation_eq_true.mpr (.inl other))] at needed
      exact needed rfl
  · intro nothing
    have untyped : module.returnType typeOf index = none := by
      rw [type]
      split_ifs with isAnnotated
      · rfl
      · rcases nothing with annotated | none
        · exact absurd (hasReturnTypeAnnotation_eq_true.mpr (.inr annotated)) isAnnotated
        · by_contra some
          obtain ⟨value,mem,typed⟩ := returnedType_ne_none.mp some
          exact typed (none value mem)
    have same : annotated.returnAnnotations = function.returnAnnotations := by
      rw [after,untyped]
      rfl
    refine ⟨⟨?_,?_⟩,?_⟩
    · rintro ⟨type,longer⟩
      exact absurd (same.symm.trans longer).symm (List.cons_ne_self type _)
    · rintro ⟨_,bare,value,mem,typed⟩
      rcases nothing with annotated | none
      · exact absurd bare annotated
      · exact absurd (none value mem) typed
    · intro type longer
      exact absurd (same.symm.trans longer).symm (List.cons_ne_self type _)

theorem run_eq_some {asserted : τ → ArgumentUser τ} {rounds : Nat} {functions : List (Function τ)}
    (ran : run typeOf asserted module rounds = some functions) {index : Nat} {function : Function τ}
    (found : module.functions[index]? = some function) (defined : function.blocks ≠ []) :
    ∃ annotated,functions[index]? = some annotated ∧ annotated.returnAnnotations =
      (module.returnType typeOf index).toList ++ function.returnAnnotations := by
  simp only [run,Option.bind_eq_bind,Option.bind_eq_some_iff,Option.pure_def,Option.some.injEq] at ran
  obtain ⟨state,inferred,rfl⟩ := ran
  refine ⟨annotateFunction asserted state index function,by rw [List.getElem?_mapIdx,found]; rfl,?_⟩
  rw [annotateFunction_annotations asserted state index defined,inferModule_returns inferred]

/-- Whenever the inference ends, the annotations of returned values are right just when no function
needs one, by its body. -/
theorem run_annotates_iff (asserted : τ → ArgumentUser τ) (typeOf : Value → Option τ) (module : Module τ)
    (rounds : Nat) (functions : List (Function τ))
    (ran : run typeOf asserted module rounds = some functions) :
    (∀ (index : Nat) before after,module.functions[index]? = some before →
      functions[index]? = some after → before.blocks ≠ [] → Annotates typeOf before after) ↔
      ∀ function ∈ module.functions,
        function.returnAnnotations ≠ [] ∨ ∀ value ∈ function.returned,typeOf value = none := by
  constructor
  · intro annotates function mem
    obtain ⟨index,found⟩ := List.getElem?_of_mem mem
    by_cases defined : function.blocks = []
    · exact .inr (by simp [Function.returned,defined])
    · obtain ⟨annotated,isAfter,after⟩ := run_eq_some ran found defined
      exact (annotates_iff found after).mp (annotates index function annotated found isAfter defined)
  · intro nothing index before after found isAfter defined
    obtain ⟨annotated,isAnnotated,annotations⟩ := run_eq_some ran found defined
    obtain rfl := Option.some.inj (isAfter.symm.trans isAnnotated)
    exact (annotates_iff found annotations).mpr (nothing before (List.mem_of_getElem? found))

/-- A function that returns the collection that it allocates. -/
def allocating (insts : List (Inst Unit)) : Module Unit where
  functions := [⟨[],.collection,[⟨insts,some 0⟩],[]⟩]
  linked := by simp
  long := by simp

/-- An annotation by hand is kept. -/
theorem allocating_annotates : (∀ (index : Nat) before after,
    (allocating [.returnType (),.other]).functions[index]? = some before →
      (allocating [.returnType (),.other]).functions[index]? = some after → before.blocks ≠ [] →
        Annotates (fun _ => some ()) before after) ↔
    ∀ function ∈ (allocating [.returnType (),.other]).functions,
      function.returnAnnotations ≠ [] ∨ ∀ value ∈ function.returned,some () = none :=
  run_annotates_iff .assertCollectionType (fun _ => some ()) (allocating [.returnType (),.other]) 1
    (allocating [.returnType (),.other]).functions rfl

/-- Without one, none is added. -/
theorem allocating_not_annotates : ¬ ∀ functions,
    run (fun _ => some ()) .assertCollectionType (allocating [.other]) 1 = some functions →
      ∀ (index : Nat) before after,(allocating [.other]).functions[index]? = some before →
        functions[index]? = some after → before.blocks ≠ [] → Annotates (fun _ => some ()) before after := by
  intro annotates
  have right := annotates (allocating [.other]).functions rfl 0 _ _ rfl rfl (by simp)
  obtain ⟨type,longer⟩ := right.added.mpr ⟨by decide,rfl,0,List.mem_singleton_self 0,by simp⟩
  exact absurd longer.symm (List.cons_ne_self type _)

end Returns
end TypeInference
end Memoir
