import Memoir.DeadFieldElimination

/-! What a finished dead-field analysis has recorded: under each type of a struct
value that does not escape, the users of such values that are accesses, whatever
the type of the object they access. -/
namespace Memoir.DeadFieldElimination

namespace Module

def Accesses (module : Module) (type : StructType) (fieldIndex : Nat) (access : Instruction) :
    Prop :=
  access ∈ module.instructions ∧ ∃ object, access.opcode.structAccess = some (object,fieldIndex) ∧
    module.typeAnalysis object = some type

def StructValue (module : Module) (type : StructType) (value : Value) : Prop :=
  value ∈ module.values ∧ module.valueIsStructType value = true ∧
    module.typeAnalysis value = some type

def TypeEscapes (module : Module) (type : StructType) : Prop :=
  ∃ value, module.StructValue type value ∧ valueEscapes module value = true

def LocalValue (module : Module) (type : StructType) (value : Value) : Prop :=
  module.StructValue type value ∧ valueEscapes module value = false

end Module

theorem Failure.bind_ok {α β : Type} (first : Except Failure α) (next : α → Except Failure β)
    (result : β) (ok : first.bind next = .ok result) :
    ∃ value, first = .ok value ∧ next value = .ok result := by
  cases first with
  | error failure => simp [Except.bind] at ok
  | ok value => exact ⟨value,rfl,ok⟩

def Opcode.registered : Opcode → Option Nat
  | structRead _ fieldIndex | structWrite _ _ fieldIndex | structGet _ fieldIndex => some fieldIndex
  | _ => none

theorem registered_isAccessInst (opcode : Opcode) (fieldIndex : Nat)
    (registered : opcode.registered = some fieldIndex) : opcode.isAccessInst = true := by
  cases opcode <;> simp [Opcode.registered,Opcode.isAccessInst] at registered ⊢

theorem registered_structAccess (opcode : Opcode) (fieldIndex : Nat)
    (registered : opcode.registered = some fieldIndex) :
    ∃ object, opcode.structAccess = some (object,fieldIndex) := by
  cases opcode <;> simp_all [Opcode.registered,Opcode.structAccess]

theorem structAccess_registered (opcode : Opcode) (object : Value) (fieldIndex : Nat)
    (isAccess : opcode.isAccessInst = true)
    (access : opcode.structAccess = some (object,fieldIndex)) :
    opcode.registered = some fieldIndex := by
  cases opcode <;> simp_all [Opcode.registered,Opcode.structAccess,Opcode.isAccessInst]

theorem insertAccess_mem (accesses : FieldToAccessMap) (fieldIndex i : Nat)
    (user access : Instruction) : access ∈ insertAccess accesses fieldIndex user i ↔
      access ∈ accesses i ∨ access = user ∧ fieldIndex = i := by
  by_cases same : i = fieldIndex
  · subst same
    simp only [insertAccess,Function.update_self,List.mem_insert_iff,and_true]
    exact or_comm
  · simp only [insertAccess,Function.update_of_ne same,show ¬ fieldIndex = i from fun h => same h.symm,
      and_false,or_false]

theorem insertAccess_nodup (accesses : FieldToAccessMap) (fieldIndex : Nat) (user : Instruction)
    (nodup : ∀ i, (accesses i).Nodup) (i : Nat) :
    (insertAccess accesses fieldIndex user i).Nodup := by
  by_cases same : i = fieldIndex
  · subst same
    simp only [insertAccess,Function.update_self]
    exact (nodup i).insert
  · simp only [insertAccess,Function.update_of_ne same]
    exact nodup i

theorem registerUser_ok (accesses next : FieldToAccessMap) (user : Instruction)
    (ok : registerUser accesses user = .ok next) (nodup : ∀ i, (accesses i).Nodup) :
    (user.opcode.isAccessInst = true → (user.opcode.registered).isSome) ∧
      (∀ i, (next i).Nodup) ∧ ∀ i access, access ∈ next i ↔
        access ∈ accesses i ∨ access = user ∧ user.opcode.registered = some i := by
  have inserted (fieldIndex : Nat) (registered : user.opcode.registered = some fieldIndex)
      (ok : ((getFieldIndex fieldIndex).bind fun i => .ok (insertAccess accesses i user)) = .ok next) :
      (user.opcode.isAccessInst = true → (user.opcode.registered).isSome) ∧
      (∀ i, (next i).Nodup) ∧ ∀ i access, access ∈ next i ↔
        access ∈ accesses i ∨ access = user ∧ user.opcode.registered = some i := by
    obtain ⟨index,checked,same⟩ := Failure.bind_ok _ _ _ ok
    unfold getFieldIndex at checked
    split at checked
    · cases checked
      cases same
      refine ⟨fun _ => by simp [registered],insertAccess_nodup accesses _ user nodup,fun i access => ?_⟩
      rw [insertAccess_mem,registered,Option.some_inj]
    · cases checked
  have skipped (none : user.opcode.registered = none) (other : user.opcode.isAccessInst = false)
      (same : accesses = next) :
      (user.opcode.isAccessInst = true → (user.opcode.registered).isSome) ∧
      (∀ i, (next i).Nodup) ∧ ∀ i access, access ∈ next i ↔
        access ∈ accesses i ∨ access = user ∧ user.opcode.registered = some i := by
    subst same
    exact ⟨fun is => by simp [other] at is,nodup,fun i access => by simp [none]⟩
  cases opcode : user.opcode <;> simp only [registerUser,opcode] at ok <;> rw [opcode] at inserted skipped
  case structRead object fieldIndex => exact inserted fieldIndex rfl ok
  case structWrite valueWritten object fieldIndex => exact inserted fieldIndex rfl ok
  case structGet object fieldIndex => exact inserted fieldIndex rfl ok
  case access operands => cases ok
  all_goals exact skipped rfl rfl (Except.ok.inj ok)

theorem registerUser_total (accesses : FieldToAccessMap) (user : Instruction)
    (registered : user.opcode.isAccessInst = true →
      ∃ fieldIndex, user.opcode.registered = some fieldIndex ∧ fieldIndex < 256) :
    ∃ next, registerUser accesses user = .ok next := by
  cases opcode : user.opcode <;> rw [opcode] at registered <;>
    simp only [registerUser,opcode] <;>
    simp only [Opcode.isAccessInst,Opcode.registered,forall_const,Bool.false_eq_true,
      Option.some.injEq,exists_eq_left',reduceCtorEq,false_and,exists_false] at registered
  case structRead object fieldIndex => simp [getFieldIndex,registered,bind,Except.bind,pure,Except.pure]
  case structWrite valueWritten object fieldIndex =>
    simp [getFieldIndex,registered,bind,Except.bind,pure,Except.pure]
  case structGet object fieldIndex => simp [getFieldIndex,registered,bind,Except.bind,pure,Except.pure]
  all_goals exact ⟨_,rfl⟩

theorem registerAll_ok (users : List Instruction) (accesses result : FieldToAccessMap)
    (ok : users.foldlM registerUser accesses = .ok result) (nodup : ∀ i, (accesses i).Nodup) :
    (∀ user ∈ users, user.opcode.isAccessInst = true → (user.opcode.registered).isSome) ∧
      (∀ i, (result i).Nodup) ∧ ∀ i access, access ∈ result i ↔
        access ∈ accesses i ∨ access ∈ users ∧ access.opcode.registered = some i := by
  induction users generalizing accesses with
  | nil =>
    cases ok
    exact ⟨by simp,nodup,by simp⟩
  | cons user users ih =>
    rw [List.foldlM_cons] at ok
    obtain ⟨next,head,tail⟩ := Failure.bind_ok _ _ _ ok
    obtain ⟨first,nodup,mem⟩ := registerUser_ok accesses next user head nodup
    obtain ⟨rest,nodup,mem'⟩ := ih next tail nodup
    refine ⟨by simpa using ⟨first,rest⟩,nodup,fun i access => ?_⟩
    rw [mem',mem,List.mem_cons,or_assoc]
    constructor
    · rintro (before | ⟨rfl,registered⟩ | ⟨later,registered⟩)
      · exact .inl before
      · exact .inr ⟨.inl rfl,registered⟩
      · exact .inr ⟨.inr later,registered⟩
    · rintro (before | ⟨rfl | later,registered⟩)
      · exact .inl before
      · exact .inr (.inl ⟨rfl,registered⟩)
      · exact .inr (.inr ⟨later,registered⟩)

theorem registerAll_total (users : List Instruction) (accesses : FieldToAccessMap)
    (registered : ∀ user ∈ users, user.opcode.isAccessInst = true →
      ∃ fieldIndex, user.opcode.registered = some fieldIndex ∧ fieldIndex < 256) :
    ∃ result, users.foldlM registerUser accesses = .ok result := by
  induction users generalizing accesses with
  | nil => exact ⟨accesses,rfl⟩
  | cons user users ih =>
    obtain ⟨next,ok⟩ := registerUser_total accesses user (registered user (by simp))
    rw [List.foldlM_cons,ok]
    exact ih next fun later member => registered later (by simp [member])

def localType (module : Module) (value : Value) : Option (StructType × Value) :=
  if module.valueIsStructType value && !valueEscapes module value then
    (module.typeAnalysis value).map fun type => (type,value)
  else none

theorem localType_iff (module : Module) (type : StructType) (value : Value) :
    (type,value) ∈ module.values.filterMap (localType module) ↔ module.LocalValue type value := by
  rw [List.mem_filterMap]
  constructor
  · rintro ⟨other,member,found⟩
    unfold localType at found
    split at found
    · rename_i kept
      rw [Bool.and_eq_true,Bool.not_eq_true'] at kept
      rw [Option.map_eq_some_iff] at found
      obtain ⟨type',typed,same⟩ := found
      cases same
      exact ⟨⟨member,kept.1,typed⟩,kept.2⟩
    · cases found
  · rintro ⟨⟨member,struct,typed⟩,stays⟩
    exact ⟨value,member,by simp [localType,struct,stays,typed]⟩

theorem analyzeValues_eq (module : Module) (values : List Value) (structs : Structs)
    (typed : ∀ value ∈ values, module.valueIsStructType value → (module.typeAnalysis value).isSome) :
    ∃ final, values.foldlM (analyzeValue module) structs = .ok final ∧
      final.structsOfType = structs.structsOfType ++ values.filterMap (localType module) := by
  induction values generalizing structs with
  | nil => exact ⟨structs,rfl,by simp⟩
  | cons value values ih =>
    have rest := fun later member => typed later (List.mem_cons_of_mem value member)
    rw [List.foldlM_cons]
    cases struct : module.valueIsStructType value with
    | false =>
      obtain ⟨final,ok,same⟩ := ih structs rest
      refine ⟨final,?_,?_⟩
      · simp only [analyzeValue,struct,Bool.false_eq_true,if_false]
        exact ok
      · simp [same,localType,struct]
    | true =>
      obtain ⟨type,analyzed⟩ := Option.isSome_iff_exists.mp (typed value (by simp) struct)
      cases escapes : valueEscapes module value with
      | true =>
        obtain ⟨final,ok,same⟩ := ih {structs with escapedTypes := type :: structs.escapedTypes} rest
        refine ⟨final,?_,?_⟩
        · simp only [analyzeValue,struct,analyzed,escapes,if_true]
          exact ok
        · simp [same,localType,escapes]
      | false =>
        obtain ⟨final,ok,same⟩ :=
          ih {structs with structsOfType := structs.structsOfType ++ [(type,value)]} rest
        refine ⟨final,?_,?_⟩
        · simp only [analyzeValue,struct,analyzed,escapes,Bool.false_eq_true,if_true,if_false]
          exact ok
        · simp [same,localType,struct,escapes,analyzed]

theorem values_typed (module : Module) (value : Value) (member : value ∈ module.values)
    (struct : module.valueIsStructType value = true) : (module.typeAnalysis value).isSome := by
  unfold Module.values at member
  obtain ⟨function,defined,member⟩ := List.mem_flatMap.mp member
  exact module.typed function (List.mem_of_mem_filter defined) value member struct

def localValues (module : Module) (type : StructType) : List Value :=
  ((module.values.filterMap (localType module)).filter (·.1 = type)).map (·.2)

def localTypes (module : Module) : List StructType :=
  ((module.values.filterMap (localType module)).map (·.1)).dedup

theorem localValues_iff (module : Module) (type : StructType) (value : Value) :
    value ∈ localValues module type ↔ module.LocalValue type value := by
  rw [← localType_iff,localValues,List.mem_map]
  constructor
  · rintro ⟨⟨type',value'⟩,member,rfl⟩
    obtain ⟨found,same⟩ := List.mem_filter.mp member
    rw [decide_eq_true_eq] at same
    exact same ▸ found
  · intro member
    exact ⟨(type,value),List.mem_filter.mpr ⟨member,by simp⟩,rfl⟩

theorem localTypes_iff (module : Module) (type : StructType) :
    type ∈ localTypes module ↔ ∃ value, module.LocalValue type value := by
  simp only [localTypes,List.mem_dedup,List.mem_map,← localType_iff]
  constructor
  · rintro ⟨⟨type',value⟩,member,rfl⟩
    exact ⟨value,member⟩
  · rintro ⟨value,member⟩
    exact ⟨_,member,rfl⟩

theorem analyze_eq (module : Module) : analyze module =
    (localTypes module).mapM fun type =>
      (registerUsers module (localValues module type)).bind fun accesses =>
        .ok (type,accesses) := by
  obtain ⟨structs,ok,same⟩ := analyzeValues_eq module module.values ⟨[],[]⟩
    fun value member struct => values_typed module value member struct
  rw [List.nil_append] at same
  rw [analyze,ok]
  simp only [bind,Except.bind,Structs.types,Structs.valuesOf,same,localTypes,localValues,pure,
    Except.pure]

private theorem mapM_ok {α β : Type} (function : α → Except Failure β) (items : List α)
    (results : List β) (ok : items.mapM function = .ok results) :
    List.Forall₂ (fun item result => function item = .ok result) items results := by
  induction items generalizing results with
  | nil => cases ok; exact .nil
  | cons item items ih =>
    rw [List.mapM_cons] at ok
    obtain ⟨result,head,rest⟩ := Failure.bind_ok _ _ _ ok
    obtain ⟨results',tail,same⟩ := Failure.bind_ok _ _ _ rest
    cases same
    exact .cons head (ih results' tail)

private theorem mapM_total {α β : Type} (function : α → Except Failure β) (items : List α)
    (total : ∀ item ∈ items, ∃ result, function item = .ok result) :
    ∃ results, items.mapM function = .ok results := by
  induction items with
  | nil => exact ⟨[],rfl⟩
  | cons item items ih =>
    obtain ⟨result,head⟩ := total item (by simp)
    obtain ⟨results,tail⟩ := ih fun later member => total later (by simp [member])
    exact ⟨result :: results,by rw [List.mapM_cons,head,tail]; rfl⟩

/-- The map that a finished analysis returns. -/
theorem analyze_ok (module : Module) (liveFields : LiveFieldMap)
    (ok : analyze module = .ok liveFields) :
    liveFields.map (·.1) = localTypes module ∧ ∀ type map, (type,map) ∈ liveFields →
      (∃ value, module.LocalValue type value) ∧ (∀ i, (map i).Nodup) ∧
      (∀ value, module.LocalValue type value → ∀ user ∈ module.users value,
        user.opcode.isAccessInst = true → (user.opcode.registered).isSome) ∧
      ∀ i access, access ∈ map i ↔ access.opcode.registered = some i ∧
        ∃ value, module.LocalValue type value ∧ access ∈ module.users value := by
  rw [analyze_eq] at ok
  have entries := mapM_ok _ _ _ ok
  have entry (type : StructType) (result : StructType × FieldToAccessMap)
      (ok : ((registerUsers module (localValues module type)).bind fun accesses =>
        .ok (type,accesses)) = .ok result) :
      type = result.1 ∧ registerUsers module (localValues module type) = .ok result.2 := by
    obtain ⟨map,registered,same⟩ := Failure.bind_ok _ _ _ ok
    cases same
    exact ⟨rfl,registered⟩
  constructor
  · exact (List.forall₂_eq_eq_eq ▸ (List.forall₂_map_right_iff.mpr
      (entries.imp fun type result ok => (entry type result ok).1)) :
        localTypes module = liveFields.map (·.1)).symm
  · intro type map member
    obtain ⟨index,bound,found⟩ := List.getElem_of_mem member
    have lengths := entries.length_eq
    have ok := entries.get (i := index) (by omega) bound
    simp only [List.get_eq_getElem,found] at ok
    obtain ⟨same,registered⟩ := entry _ _ ok
    simp only at same registered
    have typed : type ∈ localTypes module := same ▸ List.getElem_mem _
    rw [same] at registered
    obtain ⟨users,nodup,mem⟩ := registerAll_ok _ _ _ registered (by simp)
    refine ⟨(localTypes_iff module type).mp typed,nodup,fun value local_ user use => ?_,
      fun i access => ?_⟩
    · exact users user (List.mem_flatMap.mpr ⟨value,(localValues_iff module type value).mpr local_,use⟩)
    · rw [mem,List.mem_flatMap]
      simp only [List.not_mem_nil,false_or,localValues_iff]
      exact and_comm

theorem analyze_total (module : Module)
    (plain : ∀ type value, module.LocalValue type value → ∀ user ∈ module.users value,
      user.opcode.isAccessInst = true → ∃ object fieldIndex,
        user.opcode.structAccess = some (object,fieldIndex)) :
    ∃ liveFields, analyze module = .ok liveFields := by
  rw [analyze_eq]
  refine mapM_total _ _ fun type _ => ?_
  obtain ⟨map,ok⟩ := registerAll_total ((localValues module type).flatMap module.users) (fun _ => [])
    (by
      intro user member isAccess
      obtain ⟨value,local_,use⟩ := List.mem_flatMap.mp member
      obtain ⟨object,fieldIndex,access⟩ :=
        plain type value ((localValues_iff module type value).mp local_) user use isAccess
      exact ⟨fieldIndex,structAccess_registered _ _ _ isAccess access,
        (module.fields user (List.mem_of_mem_filter use) object fieldIndex access).1⟩)
  exact ⟨(type,map),by rw [registerUsers,ok]; rfl⟩

end Memoir.DeadFieldElimination
