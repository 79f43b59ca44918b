import Memoir.DeadFieldExact

/-! The runs of a module before and after dead-field elimination. The structs lose fields that no access
names, and the accesses see what they have seen before. -/
namespace Memoir.DeadFieldElimination

structure Object (ν : Type) where
  type : StructType
  contents : List ν

abbrev Heap (ν : Type) := Nat → Option (Object ν)

/-- What a run does to structs. A field begins with what it is given as a field of the original
definition. -/
inductive Event (ν : Type)
  | allocate (handle : Nat) (type : StructType) (initial : Nat → ν)
  | access (instruction : Instruction) (handle : Nat) (valueWritten : ν)

abbrev Program (ν : Type) := List (Option ν) → Option (Event ν)

section
variable {ν : Type} (definition : Transformed)

/-- A field that holds an object is that object, and a get answers it. -/
def Event.run (heap : Heap ν) : Event ν → Option (Heap ν × Option ν)
  | .allocate handle type initial =>
    some (Function.update heap handle (some ⟨type,(definition.fields type).map initial⟩),none)
  | .access instruction handle valueWritten => do
    let object ← heap handle
    let fieldIndex := definition.fieldIndex instruction.name
    let value ← object.contents[fieldIndex]?
    match instruction.opcode with
    | .structRead _ _ | .structGet _ _ => some (heap,some value)
    | .structWrite _ _ _ | .mutStructWrite _ _ _ =>
      some (Function.update heap handle
        (some ⟨object.type,object.contents.set fieldIndex valueWritten⟩),none)
    | _ => none

inductive Reaches (program : Program ν) : Heap ν → List (Option ν) → Prop
  | start : Reaches program (fun _ => none) []
  | step {heap heap' : Heap ν} {answers : List (Option ν)} {event : Event ν} {answer : Option ν}
      (before : Reaches program heap answers) (isNext : program answers = some event)
      (ran : event.run definition heap = some (heap',answer)) : Reaches program heap' (answer :: answers)

end

section
variable {ν : Type} {module : Module}

/-- An access is an instruction of the module, and its struct is of the type that type analysis says. -/
def Event.Typed (module : Module) (heap : Heap ν) : Event ν → Prop
  | .allocate _ _ _ => True
  | .access instruction handle _ => ∃ type fieldIndex contents,
    module.Accesses type fieldIndex instruction ∧ heap handle = some ⟨type,contents⟩

structure Shrunk (module : Module) (result : Transformed) (object object' : Object ν) : Prop where
  type : object'.type = object.type
  whole : object.contents.length = module.numFields object.type
  length : object'.contents.length = (result.fields object.type).length
  kept : ∀ k i : Nat,(result.fields object.type)[k]? = some i → object'.contents[k]? = object.contents[i]?

def Alike (module : Module) (result : Transformed) (heap heap' : Heap ν) : Prop :=
  ∀ handle,Option.Rel (Shrunk module result) (heap handle) (heap' handle)

variable {result : Transformed} {heap heap' : Heap ν}

theorem Alike.update (alike : Alike module result heap heap') (handle : Nat) {object object' : Object ν}
    (shrunk : Shrunk module result object object') :
    Alike module result (Function.update heap handle (some object))
      (Function.update heap' handle (some object')) := by
  intro other
  by_cases same : other = handle
  · rw [same,Function.update_self,Function.update_self]
    exact .some shrunk
  · rw [Function.update_of_ne same,Function.update_of_ne same]
    exact alike other

theorem shrunk_allocated (inside : ∀ type,∀ i ∈ result.fields type,i < module.numFields type)
    (type : StructType) (initial : Nat → ν) :
    Shrunk module result ⟨type,(List.range (module.numFields type)).map initial⟩
      ⟨type,(result.fields type).map initial⟩ where
  type := rfl
  whole := by rw [List.length_map,List.length_range]
  length := List.length_map _
  kept := by
    intro k i isField
    have below := inside type i (List.mem_of_getElem? isField)
    rw [List.getElem?_map,isField,List.getElem?_map,List.getElem?_range below]

/-- A write to a field that is left changes that field only, also where it is now. -/
theorem Shrunk.set {object object' : Object ν} (shrunk : Shrunk module result object object')
    (nodup : (result.fields object.type).Nodup) {k i : Nat}
    (isField : (result.fields object.type)[k]? = some i) (below : i < object.contents.length) (value : ν) :
    Shrunk module result ⟨object.type,object.contents.set i value⟩
      ⟨object'.type,object'.contents.set k value⟩ where
  type := shrunk.type
  whole := by rw [List.length_set]; exact shrunk.whole
  length := by rw [List.length_set]; exact shrunk.length
  kept := by
    intro k' i' isField'
    have inside : k < object'.contents.length := by
      rw [shrunk.length]
      exact (List.getElem?_eq_some_iff.mp isField).1
    by_cases same : k' = k
    · subst same
      obtain rfl := Option.some.inj (isField.symm.trans isField')
      rw [List.getElem?_set_self inside,List.getElem?_set_self below]
    · have apart : i ≠ i' := by
        rintro rfl
        obtain ⟨first,isFirst⟩ := List.getElem?_eq_some_iff.mp isField
        obtain ⟨second,isSecond⟩ := List.getElem?_eq_some_iff.mp isField'
        exact same (nodup.getElem_inj_iff.mp (isSecond.trans isFirst.symm))
      rw [List.getElem?_set_ne (Ne.symm same),List.getElem?_set_ne apart]
      exact shrunk.kept k' i' isField'

/-- An event does the same to the structs that have lost fields, and has the same answer. -/
theorem Alike.run (alike : Alike module result heap heap') (kept : FieldsKept module result)
    (nodup : ∀ type,(result.fields type).Nodup)
    (inside : ∀ type,∀ i ∈ result.fields type,i < module.numFields type) {event : Event ν}
    (typed : event.Typed module heap) :
    ∃ next next' answer,event.run (original module) heap = some (next,answer) ∧
      event.run result heap' = some (next',answer) ∧ Alike module result next next' := by
  cases event with
  | allocate handle type initial =>
    exact ⟨_,_,none,rfl,rfl,alike.update handle (shrunk_allocated inside type initial)⟩
  | access instruction handle valueWritten =>
    obtain ⟨type,fieldIndex,contents,accessed,isObject⟩ := typed
    have named := kept.named type fieldIndex instruction accessed
    obtain ⟨inst,object,struct,isType⟩ := accessed
    have index := fieldIndex_eq module instruction object fieldIndex inst struct
    have related := alike handle
    rw [isObject] at related
    cases isObject' : heap' handle with
    | none => rw [isObject'] at related; exact nomatch related
    | some object' =>
      rw [isObject'] at related
      obtain ⟨shrunk⟩ := related
      have below : fieldIndex < contents.length := by
        rw [shrunk.whole]
        exact (module.fields instruction inst object fieldIndex struct).2 type isType
      have there := List.getElem?_eq_getElem below
      have there' := (shrunk.kept _ _ named).trans there
      have written := alike.update handle (shrunk.set (nodup type) named below valueWritten)
      cases isOpcode : instruction.opcode with
      | structRead _ _ | structGet _ _ =>
        refine ⟨heap,heap',some contents[fieldIndex],?_,?_,alike⟩
        · simp only [Event.run,original,isObject,index,there,isOpcode,Option.bind_eq_bind,Option.bind_some]
        · simp only [Event.run,isObject',there',isOpcode,Option.bind_eq_bind,Option.bind_some]
      | structWrite _ _ _ | mutStructWrite _ _ _ =>
        refine ⟨_,_,none,?_,?_,written⟩
        · simp only [Event.run,original,isObject,index,there,isOpcode,Option.bind_eq_bind,Option.bind_some]
        · simp only [Event.run,isObject',there',isOpcode,Option.bind_eq_bind,Option.bind_some]
      | access _ | memoir _ | call _ _ | other _ =>
        rw [isOpcode] at struct
        exact nomatch struct

end

end Memoir.DeadFieldElimination
