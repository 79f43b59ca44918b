import Memoir.BitField

/-! Structs in memory: the loads and stores that struct accesses are lowered to, over whole runs. A
struct is a record of its fields where its bit fields read back. -/
namespace Memoir.StructAccess
open TypeLayout BitField

/-- What an element of an LLVM struct holds. What is not an integer is moved as a whole. -/
inductive Word (α : Type)
  | bits (width : Nat) (value : BitVec width)
  | other (contents : α)

abbrev Storage (α : Type) := List (Word α)

inductive Access (α : Type)
  | read (fieldIndex : Nat)
  | write (fieldIndex : Nat) (valueWritten : Word α)

def fieldType : MemoirType → Nat × Bool
  | .integer type => (type.getBitWidth,type.isSigned)
  | _ => (0,false)

section
variable {α : Type} (types : List MemoirType) (layout : Layout) (accessWidth : Nat → Nat)

/-- `visitStructReadInst`; `none` where the code would not be well typed, or yields poison. -/
def read (storage : Storage α) (fieldIndex : Nat) : Option (Word α) := do
  let type ← types[fieldIndex]?
  let offset ← layout.getFieldOffset fieldIndex
  let load ← storage[offset]?
  match layout.getBitFieldRange fieldIndex,load with
  | none,load => some load
  | some (start,stop),.bits _ load =>
    (structRead start stop (fieldType type).1 (fieldType type).2 (accessWidth fieldIndex) load).map
      (.bits (accessWidth fieldIndex))
  | some _,.other _ => none

/-- `visitStructWriteInst`. A store is of the type of its element. -/
def write (storage : Storage α) (fieldIndex : Nat) (valueWritten : Word α) : Option (Storage α) := do
  let offset ← layout.getFieldOffset fieldIndex
  let load ← storage[offset]?
  match layout.getBitFieldRange fieldIndex,load,valueWritten with
  | none,.bits width _,.bits width' value =>
    if width = width' then some (storage.set offset (.bits width' value)) else none
  | none,.other _,.other contents => some (storage.set offset (.other contents))
  | some (start,stop),.bits width load,.bits _ value =>
    (structWrite start stop load value).map fun stored => storage.set offset (.bits width stored)
  | _,_,_ => none

def Word.OfType (word : Word α) : LlvmType → Prop
  | .int width => ∃ value,word = .bits width value
  | _ => ∃ contents,word = .other contents

def Typed (storage : Storage α) : Prop :=
  ∃ name elements,layout.llvmType = .struct name elements ∧ List.Forall₂ Word.OfType storage elements

/-- A value of a field. That of a bit field has the integer type of its accesses. -/
def IsValue (fieldIndex : Nat) (word : Word α) : Prop :=
  ∃ type,types[fieldIndex]? = some type ∧ match bitWidth type with
    | some bits => ∃ value : BitVec bits,
      word = .bits (accessWidth fieldIndex) (createIntCast (accessWidth fieldIndex) (fieldType type).2 value)
    | none => ∃ field,convert type = some field ∧ word.OfType field.llvmType

def Access.Defined : Access α → Prop
  | .read fieldIndex => fieldIndex < types.length
  | .write fieldIndex valueWritten => IsValue types accessWidth fieldIndex valueWritten

def Follows (storage : Storage α) (record : Nat → Word α) : List (Access α) → Prop
  | [] => True
  | .read fieldIndex :: rest =>
    read types layout accessWidth storage fieldIndex = some (record fieldIndex) ∧
      Follows storage record rest
  | .write fieldIndex valueWritten :: rest => ∃ storage',
    write layout storage fieldIndex valueWritten = some storage' ∧
      Follows storage' (Function.update record fieldIndex valueWritten) rest

def Behaves (α : Type) : Prop :=
  ∀ storage : Storage α,Typed layout storage → ∃ record,∀ accesses : List (Access α),
    (∀ access ∈ accesses,access.Defined types accessWidth) →
    Follows types layout accessWidth storage record accesses

/-- A bit field ends by bit 32; if it is signed, it starts its container, which has its width, or the
accesses have. -/
def Fits : Prop :=
  ∀ fieldIndex type start stop offset,types[fieldIndex]? = some type →
    layout.getBitFieldRange fieldIndex = some (start,stop) → layout.getFieldOffset fieldIndex = some offset →
    stop ≤ 32 ∧ ((fieldType type).2 = true → start = 0 ∧
      (layout.elementAt offset = some (.int (fieldType type).1) ∨
        accessWidth fieldIndex = (fieldType type).1))

end

section
variable {types : List MemoirType} {layout : Layout} {accessWidth : Nat → Nat}

/-- A field has a bit range if its type has a width, and the range is as wide. -/
theorem placements_types {width offset : Nat} {widths : List (Option Nat)} {fields : List Layout}
    (laid : List.Forall₂ FieldLayout fields widths) {i offset' : Nat} {range : Option (Nat × Nat)}
    (placed : (placements width offset fields)[i]? = some (offset',range)) :
    ∃ start bits,widths[i]? = some bits ∧ range = bits.map fun bits => (start,start + bits) := by
  induction laid generalizing width offset i with
  | nil => exact nomatch placed
  | @cons field bits fields widths head rest ih =>
    cases bits with
    | some bits =>
      simp only [placements,head.1] at placed
      cases i with
      | zero =>
        simp only [List.getElem?_cons_zero,Option.some.injEq,Prod.mk.injEq] at placed
        exact ⟨width,some bits,rfl,placed.2.symm⟩
      | succ i =>
        simp only [List.getElem?_cons_succ] at placed ⊢
        split at placed
        · exact ih placed
        · exact ih placed
    | none =>
      simp only [placements,head.1] at placed
      cases i with
      | zero =>
        refine ⟨0,none,rfl,?_⟩
        split at placed
        · exact (Prod.mk.inj (Option.some.inj placed)).2.symm
        · exact (Prod.mk.inj (Option.some.inj placed)).2.symm
      | succ i =>
        split at placed
        · exact ih placed
        · exact ih placed

theorem range_of_bitWidth {name : String} (converted : convert (.struct name types) = some layout)
    {i : Nat} {type : MemoirType} (isType : types[i]? = some type) :
    ∃ start,layout.getBitFieldRange i = (bitWidth type).map fun bits => (start,start + bits) := by
  obtain ⟨fields,rfl,inner⟩ := convert_struct name types layout converted
  obtain ⟨below,_⟩ := List.getElem?_eq_some_iff.mp isType
  have inPlaced : i < (placements 0 0 fields).length := by
    rw [placements_length,← inner.length_eq]
    exact below
  have placed := List.getElem?_eq_getElem inPlaced
  obtain ⟨start,bits,isBits,isRange⟩ := placements_types (fieldLayouts types fields inner)
    (placed.trans (congrArg some (Prod.mk.eta).symm))
  rw [List.getElem?_map,isType,Option.map_some] at isBits
  obtain rfl := Option.some.inj isBits
  refine ⟨start,?_⟩
  rw [structLayout_range,placed,Option.bind_some,isRange]

/-- A field that is stored as a bit field has the width of its type, which is one or two. -/
theorem fieldType_of_bitWidth {type : MemoirType} {bits : Nat} (isBits : bitWidth type = some bits) :
    (fieldType type).1 = bits ∧ 0 < bits ∧ bits ≤ 2 := by
  cases type with
  | integer type => cases type <;> simp_all [bitWidth,fieldType,IntegerType.getBitWidth] <;> omega
  | _ => cases isBits

theorem llvmType_le {type : MemoirType} {field : Layout} (converted : convert type = some field)
    {width : Nat} (isInt : field.llvmType = .int width) : width ≤ 64 := by
  cases type with
  | integer type =>
    obtain rfl := Option.some.inj converted
    obtain rfl := LlvmType.int.inj isInt
    cases type <;> decide
  | float | double | pointer => obtain rfl := Option.some.inj converted; exact nomatch isInt
  | reference referenced =>
    obtain ⟨inner,_,same⟩ := Option.bind_eq_some_iff.mp converted
    obtain rfl := Option.some.inj same
    exact nomatch isInt
  | struct name fields =>
    obtain ⟨inner,_,same⟩ := Option.bind_eq_some_iff.mp converted
    obtain rfl := Option.some.inj same
    exact nomatch isInt
  | staticTensor element dimensions =>
    rcases dimensions with _ | ⟨length,_ | ⟨length',dimensions⟩⟩
    · exact nomatch converted
    · obtain ⟨inner,_,same⟩ := Option.bind_eq_some_iff.mp converted
      obtain rfl := Option.some.inj same
      exact nomatch isInt
    · exact nomatch converted
  | tensor _ _ | assocArray _ _ | sequence _ => exact nomatch converted

theorem bits_of_range {name : String} (converted : convert (.struct name types) = some layout)
    (formed : WellFormed types layout) {i start stop : Nat}
    (isRange : layout.getBitFieldRange i = some (start,stop)) : ∃ type bits offset,
      types[i]? = some type ∧ bitWidth type = some bits ∧ 0 < bits ∧ stop = start + bits ∧
      layout.getFieldOffset i = some offset ∧
      ∃ width,layout.elementAt offset = some (.int width) ∧ start + bits ≤ width := by
  have below : i < types.length := by
    obtain ⟨fields,rfl,inner⟩ := convert_struct name types layout converted
    rw [structLayout_range] at isRange
    obtain ⟨_,isPlaced,_⟩ := Option.bind_eq_some_iff.mp isRange
    have inside := (List.getElem?_eq_some_iff.mp isPlaced).1
    rwa [placements_length,← inner.length_eq] at inside
  have isType := List.getElem?_eq_getElem below
  obtain ⟨start',same⟩ := range_of_bitWidth converted isType
  rw [isRange] at same
  obtain ⟨bits,isBits,same⟩ := Option.map_eq_some_iff.mp same.symm
  obtain ⟨rfl,rfl⟩ := Prod.mk.inj same
  obtain ⟨offset,width,isOffset,isElement,inside⟩ := formed.bits i _ _ below isRange
  exact ⟨_,bits,offset,isType,isBits,(fieldType_of_bitWidth isBits).2.1,rfl,isOffset,width,isElement,inside⟩

theorem getNextSize_le {width : Nat} (small : width ≤ 32) : getNextSize width ≤ 64 := by
  interval_cases width <;> decide

/-- No container is wider than 64 bits if all bit fields end by bit 32. -/
theorem emitted_le (offset : Nat) {width : Nat} {widths : List (Option Nat)} {fields : List Layout}
    (laid : List.Forall₂ FieldLayout fields widths)
    (plain : ∀ field ∈ fields,∀ element,field.llvmType = .int element → element ≤ 64)
    (small : width ≤ 32)
    (low : ∀ offset' start stop,(offset',some (start,stop)) ∈ placements width offset fields → stop ≤ 32)
    {element : Nat} (member : LlvmType.int element ∈ emitted width fields) : element ≤ 64 := by
  induction laid generalizing offset width with
  | nil =>
    simp only [emitted] at member
    split at member
    · cases List.mem_singleton.mp member
      exact getNextSize_le small
    · cases member
  | @cons field bits fields widths head rest ih =>
    have own := plain field (List.mem_cons_self ..)
    have others := fun other (isOther : other ∈ fields) => plain other (List.mem_cons_of_mem _ isOther)
    cases bits with
    | some bits =>
      simp only [emitted,placements,head.1] at member low
      have here : width + bits ≤ 32 := low offset width (width + bits) (List.mem_cons_self ..)
      split at member
      · rename_i size
        simp only [List.mem_cons,LlvmType.int.injEq] at member
        rcases member with rfl | same | later
        · omega
        · exact own element same.symm
        · refine ih (offset + 1) others (by omega) (fun o s e isIn => low o s e ?_) later
          rw [if_pos size]
          exact List.mem_cons_of_mem _ isIn
      · rename_i size
        refine ih offset others here (fun o s e isIn => low o s e ?_) member
        rw [if_neg size]
        exact List.mem_cons_of_mem _ isIn
    | none =>
      simp only [emitted,placements,head.1] at member low
      split at member
      · rename_i open_
        simp only [List.mem_cons,LlvmType.int.injEq] at member
        rcases member with rfl | same | later
        · omega
        · exact own element same.symm
        · refine ih (offset + 2) others (by omega) (fun o s e isIn => low o s e ?_) later
          rw [if_pos open_]
          exact List.mem_cons_of_mem _ isIn
      · rename_i closed
        simp only [List.mem_cons] at member
        rcases member with same | later
        · exact own element same.symm
        · refine ih (offset + 1) others (by omega) (fun o s e isIn => low o s e ?_) later
          rw [if_neg closed]
          exact List.mem_cons_of_mem _ isIn

/-- The container of a bit field is not wider than 64 bits if all bit fields end by bit 32. -/
theorem container_le {name : String} (converted : convert (.struct name types) = some layout)
    (low : ∀ i start stop,layout.getBitFieldRange i = some (start,stop) → stop ≤ 32) {offset width : Nat}
    (container : layout.elementAt offset = some (.int width)) : width ≤ 64 := by
  obtain ⟨fields,rfl,inner⟩ := convert_struct name types layout converted
  rw [structLayout_element] at container
  refine emitted_le 0 (fieldLayouts types fields inner) (fun field isField element isInt => ?_)
    (Nat.zero_le _) (fun offset' start stop isIn => ?_) (List.mem_of_getElem? container)
  · obtain ⟨i,below,rfl⟩ := List.getElem_of_mem isField
    have same := inner.get (show i < types.length by rw [inner.length_eq]; exact below) below
    exact llvmType_le same isInt
  · obtain ⟨i,below,isPlaced⟩ := List.getElem_of_mem isIn
    apply low i start stop
    rw [structLayout_range,List.getElem?_eq_getElem below,isPlaced]
    rfl

end

section
variable {width start bits accessWidth : Nat} {isSigned : Bool}

/-- A read sees the bits of its field only. -/
theorem structRead_congr (accessWidth : Nat) (load load' : BitVec width) (positive : 0 < bits) (small : bits ≤ 2)
    (below : start + bits ≤ 32) (inside : start + bits ≤ width) (bottom : isSigned = true → start = 0)
    (same : ∀ j,start ≤ j → j < start + bits → load.getLsbD j = load'.getLsbD j) :
    ∃ value,structRead start (start + bits) bits isSigned accessWidth load = some value ∧
      structRead start (start + bits) bits isSigned accessWidth load' = some value := by
  cases isSigned with
  | false =>
    obtain ⟨value,read,isValue⟩ := structRead_unsigned start (start + bits) bits accessWidth load
      (by omega) below (by omega)
    obtain ⟨value',read',isValue'⟩ := structRead_unsigned start (start + bits) bits accessWidth load'
      (by omega) below (by omega)
    have equal : value' = value := by
      apply BitVec.eq_of_getLsbD_eq
      intro j _
      rw [isValue,isValue',Nat.add_sub_cancel_left]
      by_cases low : j < bits
      · rw [same (start + j) (by omega) (by omega)]
      · have out : inMask 0 bits j = false := by
          simp only [inMask,decide_eq_false_iff_not]
          omega
        rw [out,Bool.and_false,Bool.and_false]
    exact ⟨value,read,equal ▸ read'⟩
  | true =>
    obtain rfl := bottom rfl
    rw [Nat.zero_add] at below inside same ⊢
    obtain ⟨mask,read,isMask⟩ := structRead_signed bits bits accessWidth load rfl positive below inside
    obtain ⟨mask',read',isMask'⟩ := structRead_signed bits bits accessWidth load' rfl positive below inside
    have equal : load' &&& constant width mask' = load &&& constant width mask := by
      apply BitVec.eq_of_getLsbD_eq
      intro j _
      rw [BitVec.getLsbD_and,BitVec.getLsbD_and,constant_getLsbD,constant_getLsbD,isMask,isMask']
      by_cases low : j < bits
      · rw [same j (Nat.zero_le j) low]
      · have out : inMask 0 bits j = false := by
          simp only [inMask,decide_eq_false_iff_not]
          omega
        rw [out,Bool.and_false,Bool.and_false,Bool.and_false]
    exact ⟨_,read,equal ▸ read'⟩

/-- A write keeps the bits below bit 32 that are not in its field. -/
theorem structWrite_kept {load stored : BitVec width} {value : BitVec accessWidth} (positive : 0 < bits)
    (below : start + bits ≤ 32) (inside : start + bits ≤ width)
    (wrote : structWrite start (start + bits) load value = some stored) {j : Nat} (low : j < 32)
    (outside : j < start ∨ start + bits ≤ j) : stored.getLsbD j = load.getLsbD j := by
  obtain ⟨stored',wrote',isStored⟩ := structWrite_bits start (start + bits) load value (by omega) below
    (by omega)
  obtain rfl := Option.some.inj (wrote.symm.trans wrote')
  rw [isStored]
  have cleared : inMask start (start + bits) j = false := by
    simp only [inMask,decide_eq_false_iff_not]
    omega
  have unwritten : (decide (start ≤ j) && inMask 0 (start + bits - start) (j - start)) = false := by
    simp only [inMask,Bool.and_eq_false_iff,decide_eq_false_iff_not]
    omega
  rw [cleared,Bool.and_right_comm,unwritten]
  by_cases within : j < width
  · simp [within,show j < 64 by omega]
  · simp [within,BitVec.getLsbD_of_ge load j (by omega)]

end

section
variable {α : Type} {types : List MemoirType} {layout : Layout} {accessWidth : Nat → Nat}
  {storage storage' : Storage α} {offset i j : Nat} {element : LlvmType} {word : Word α}

theorem Typed.holds (typed : Typed layout storage) (isElement : layout.elementAt offset = some element) :
    ∃ word,storage[offset]? = some word ∧ word.OfType element := by
  obtain ⟨name,elements,isStruct,same⟩ := typed
  rw [Layout.elementAt,isStruct] at isElement
  obtain ⟨below,rfl⟩ := List.getElem?_eq_some_iff.mp isElement
  have below' : offset < storage.length := same.length_eq.symm ▸ below
  exact ⟨_,List.getElem?_eq_getElem below',same.get below' below⟩

theorem Typed.set (typed : Typed layout storage) (isElement : layout.elementAt offset = some element)
    (ofType : word.OfType element) : Typed layout (storage.set offset word) := by
  obtain ⟨name,elements,isStruct,same⟩ := typed
  rw [Layout.elementAt,isStruct] at isElement
  obtain ⟨below,rfl⟩ := List.getElem?_eq_some_iff.mp isElement
  refine ⟨name,elements,isStruct,List.forall₂_iff_get.mpr ⟨?_,fun k inStorage inElements => ?_⟩⟩
  · rw [List.length_set,same.length_eq]
  · rw [List.get_eq_getElem,List.get_eq_getElem,List.getElem_set]
    split
    · rename_i here
      obtain rfl := here
      exact ofType
    · exact same.get (by rwa [List.length_set] at inStorage) inElements

/-- A bit field of a container that is not wider than 64 bits. -/
def fieldOf {type : MemoirType} {bits start width access : Nat} (isBits : bitWidth type = some bits)
    (inside : start + bits ≤ width) (narrow : width ≤ 64) (enough : bits ≤ access) : Field where
  containerWidth := width
  start := start
  stop := start + bits
  fieldWidth := bits
  isSigned := (fieldType type).2
  accessWidth := access
  width_le := by unfold maxIntBits; omega
  range := rfl
  inside := inside
  positive := (fieldType_of_bitWidth isBits).2.1
  bitField := by
    obtain ⟨_,positive,small⟩ := fieldType_of_bitWidth isBits
    interval_cases bits <;> decide
  access := enough

structure Sound (types : List MemoirType) (layout : Layout) (accessWidth : Nat → Nat) : Prop where
  formed : WellFormed types layout
  ranges : ∀ i type,types[i]? = some type →
    ∃ start,layout.getBitFieldRange i = (bitWidth type).map fun bits => (start,start + bits)
  containers : ∀ offset width,layout.elementAt offset = some (.int width) → width ≤ 64
  accesses : ∀ i type bits,types[i]? = some type → bitWidth type = some bits → bits ≤ accessWidth i
  fits : Fits types layout accessWidth

/-- A field has an element to itself, or some bits of one. -/
theorem Sound.field (sound : Sound types layout accessWidth) {type : MemoirType}
    (isType : types[i]? = some type) : ∃ offset,layout.getFieldOffset i = some offset ∧
      ((bitWidth type = none ∧ layout.getBitFieldRange i = none ∧ ∃ field,convert type = some field ∧
          layout.elementAt offset = some field.llvmType) ∨
        ∃ field : Field,bitWidth type = some field.fieldWidth ∧
          layout.getBitFieldRange i = some (field.start,field.stop) ∧
          layout.elementAt offset = some (.int field.containerWidth) ∧
          field.isSigned = (fieldType type).2 ∧ field.accessWidth = accessWidth i ∧
          field.fieldWidth = (fieldType type).1 ∧ field.fieldWidth ≤ 2 ∧ ReadsBack field) := by
  have below := (List.getElem?_eq_some_iff.mp isType).1
  obtain ⟨start,isRange⟩ := sound.ranges i type isType
  cases isBits : bitWidth type with
  | none =>
    rw [isBits,Option.map_none] at isRange
    obtain ⟨offset,field,isOffset,isField,isElement⟩ := sound.formed.plain i type isType
      (by rw [Layout.isBitField,isRange]; rfl)
    exact ⟨offset,isOffset,Or.inl ⟨rfl,isRange,field,isField,isElement⟩⟩
  | some bits =>
    rw [isBits,Option.map_some] at isRange
    obtain ⟨offset,width,isOffset,isElement,inside⟩ := sound.formed.bits i _ _ below isRange
    obtain ⟨same,_,small⟩ := fieldType_of_bitWidth isBits
    have narrow := sound.containers offset width isElement
    obtain ⟨low,signed⟩ := sound.fits i type _ _ offset isType isRange isOffset
    refine ⟨offset,isOffset,Or.inr ⟨fieldOf isBits inside narrow (sound.accesses i type bits isType isBits),
      rfl,isRange,isElement,rfl,rfl,same.symm,small,?_⟩⟩
    refine (readsBack_iff _).mpr ⟨low,fun isSigned => ?_⟩
    obtain ⟨bottom,exact_⟩ := signed isSigned
    rw [same,isElement,Option.some.injEq,LlvmType.int.injEq] at exact_
    exact ⟨bottom,exact_⟩

/-- A read looks at the element of its field. -/
theorem read_congr (isOffset : layout.getFieldOffset i = some offset)
    (same : storage'[offset]? = storage[offset]?) :
    read types layout accessWidth storage' i = read types layout accessWidth storage i := by
  unfold read
  rw [isOffset]
  simp only [Option.bind_eq_bind,Option.bind_some,same]

theorem read_plain {type : MemoirType} (isType : types[i]? = some type)
    (isOffset : layout.getFieldOffset i = some offset) (isRange : layout.getBitFieldRange i = none) :
    read types layout accessWidth storage i = storage[offset]? := by
  unfold read
  rw [isType,isOffset,isRange]
  simp only [Option.bind_eq_bind,Option.bind_some]
  cases storage[offset]? <;> rfl

theorem read_bits {type : MemoirType} {start stop width : Nat} {load : BitVec width}
    (isType : types[i]? = some type) (isOffset : layout.getFieldOffset i = some offset)
    (isRange : layout.getBitFieldRange i = some (start,stop))
    (there : storage[offset]? = some (.bits width load)) :
    read types layout accessWidth storage i =
      (structRead start stop (fieldType type).1 (fieldType type).2 (accessWidth i) load).map
        (.bits (accessWidth i)) := by
  unfold read
  rw [isType,isOffset,isRange]
  simp only [Option.bind_eq_bind,Option.bind_some,there]

theorem Sound.read_isSome (sound : Sound types layout accessWidth) (typed : Typed layout storage)
    (below : i < types.length) : ∃ word,read types layout accessWidth storage i = some word := by
  have isType := List.getElem?_eq_getElem below
  obtain ⟨offset,isOffset,⟨_,isRange,field,_,isElement⟩ | ⟨field,isBits,isRange,isElement,isSigned,_,
    isWidth,small,reads⟩⟩ := sound.field isType
  · obtain ⟨word,there,_⟩ := typed.holds isElement
    exact ⟨word,by rw [read_plain isType isOffset isRange,there]⟩
  · obtain ⟨word,there,load,rfl⟩ := typed.holds isElement
    obtain ⟨low,signed⟩ := (readsBack_iff field).mp reads
    obtain ⟨value,isValue,_⟩ := structRead_congr (accessWidth i) load load field.positive
      small (field.range ▸ low) (field.range ▸ field.inside) (fun is => (signed is).1) (fun _ _ _ => rfl)
    rw [field.range] at isValue
    refine ⟨.bits (accessWidth i) value,?_⟩
    rw [read_bits isType isOffset isRange there,← isWidth,← isSigned,isValue]
    rfl

/-- A write is read back, and the other fields are as before. -/
theorem Sound.write_record (sound : Sound types layout accessWidth) (typed : Typed layout storage)
    (isValue : IsValue types accessWidth i word) :
    ∃ storage',write layout storage i word = some storage' ∧ Typed layout storage' ∧
      read types layout accessWidth storage' i = some word ∧
      ∀ j < types.length,j ≠ i →
        read types layout accessWidth storage' j = read types layout accessWidth storage j := by
  obtain ⟨type,isType,isValue⟩ := isValue
  have below := (List.getElem?_eq_some_iff.mp isType).1
  obtain ⟨offset,isOffset,⟨noBits,isRange,field,isField,isElement⟩ | ⟨field,isBits,isRange,isElement,
    isSigned,isAccess,isWidth,small,reads⟩⟩ := sound.field isType
  · -- The field has its element to itself.
    rw [noBits] at isValue
    obtain ⟨field',isField',ofType⟩ := isValue
    obtain rfl := Option.some.inj (isField.symm.trans isField')
    obtain ⟨load,there,ofType'⟩ := typed.holds isElement
    have inside := (List.getElem?_eq_some_iff.mp there).1
    have wrote : write layout storage i word = some (storage.set offset word) := by
      unfold write
      rw [isOffset,isRange]
      simp only [Option.bind_eq_bind,Option.bind_some,there]
      cases isInt : field.llvmType with
      | int width =>
        rw [isInt] at ofType ofType'
        obtain ⟨value,rfl⟩ := ofType
        obtain ⟨value',rfl⟩ := ofType'
        exact if_pos rfl
      | float | double | ptr _ | array _ _ | struct _ _ =>
        rw [isInt] at ofType ofType'
        obtain ⟨value,rfl⟩ := ofType
        obtain ⟨value',rfl⟩ := ofType'
        rfl
    refine ⟨_,wrote,typed.set isElement ofType,?_,fun j below' apart => ?_⟩
    · rw [read_plain isType isOffset isRange,List.getElem?_set_self inside]
    · obtain ⟨offset',isOffset',_⟩ := sound.field (List.getElem?_eq_getElem below')
      apply read_congr isOffset'
      rcases sound.formed.disjoint j i below' below apart with elsewhere | ⟨_,_,_,_,_,isRange',_⟩
      · rw [isOffset,isOffset'] at elsewhere
        exact List.getElem?_set_ne fun same => elsewhere (congrArg some same.symm)
      · exact nomatch isRange.symm.trans isRange'
  · -- The field shares its element.
    rw [isBits] at isValue
    obtain ⟨value,rfl⟩ := isValue
    obtain ⟨_,there,load,rfl⟩ := typed.holds isElement
    have inside := (List.getElem?_eq_some_iff.mp there).1
    obtain ⟨stored,wrote,isRead⟩ := Option.bind_eq_some_iff.mp (reads load value)
    obtain ⟨low,_⟩ := (readsBack_iff field).mp reads
    have extended : (.bits field.accessWidth (field.extend value) : Word α) =
        .bits (accessWidth i) (createIntCast (accessWidth i) (fieldType type).2 value) := by
      rw [← isAccess,← isSigned]
      rfl
    rw [← extended]
    have wrote' : write layout storage i (.bits field.accessWidth (field.extend value)) =
        some (storage.set offset (.bits field.containerWidth stored)) := by
      unfold write
      rw [isOffset,isRange]
      simp only [Option.bind_eq_bind,Option.bind_some,there,wrote,Option.map_some]
    refine ⟨_,wrote',typed.set isElement ⟨stored,rfl⟩,?_,fun j below' apart => ?_⟩
    · rw [read_bits isType isOffset isRange (List.getElem?_set_self inside),← isWidth,← isSigned,
        ← isAccess,isRead]
      rfl
    · have isType' := List.getElem?_eq_getElem below'
      obtain ⟨offset',isOffset',kind⟩ := sound.field isType'
      by_cases same : offset' = offset
      · subst same
        obtain ⟨start,stop,start',stop',isRange',isRange'',behind⟩ :=
          (sound.formed.disjoint j i below' below apart).resolve_left
            (not_not.mpr (isOffset'.trans isOffset.symm))
        rw [isRange] at isRange''
        obtain ⟨rfl,rfl⟩ := Prod.mk.inj (Option.some.inj isRange'')
        obtain ⟨_,noRange,_⟩ | ⟨other,_,otherRange,otherElement,otherSigned,_,otherWidth,otherSmall,
          otherReads⟩ := kind
        · exact nomatch noRange.symm.trans isRange'
        · rw [otherRange] at isRange'
          obtain ⟨rfl,rfl⟩ := Prod.mk.inj (Option.some.inj isRange')
          obtain ⟨otherLow,otherBottom⟩ := (readsBack_iff other).mp otherReads
          have width : other.containerWidth = field.containerWidth :=
            LlvmType.int.inj (Option.some.inj (otherElement.symm.trans isElement))
          have otherInside := other.inside
          have range := field.range
          have range' := other.range
          rw [read_bits isType' isOffset' otherRange (List.getElem?_set_self inside),
            read_bits isType' isOffset' otherRange there,← otherWidth,← otherSigned,← range']
          obtain ⟨value',first,second⟩ := structRead_congr (accessWidth j) stored load
            other.positive otherSmall (range'.symm ▸ otherLow) (by omega)
            (fun is => (otherBottom is).1) (fun k from_ upTo => structWrite_kept field.positive
              (range.symm ▸ low) (range.symm ▸ field.inside) (range.symm ▸ wrote)
              (show k < 32 by omega) (by omega))
          rw [first,second]
      · apply read_congr isOffset'
        exact List.getElem?_set_ne (Ne.symm same)

/-- The record that is read off a struct is what its runs see. -/
theorem Sound.follows (sound : Sound types layout accessWidth) (typed : Typed layout storage)
    {record : Nat → Word α}
    (represents : ∀ k < types.length,read types layout accessWidth storage k = some (record k))
    (accesses : List (Access α)) (defined : ∀ access ∈ accesses,access.Defined types accessWidth) :
    Follows types layout accessWidth storage record accesses := by
  induction accesses generalizing storage record with
  | nil => exact trivial
  | cons access rest ih =>
    obtain ⟨first,others⟩ := List.forall_mem_cons.mp defined
    cases access with
    | read fieldIndex => exact ⟨represents fieldIndex first,ih typed represents others⟩
    | write fieldIndex valueWritten =>
      obtain ⟨storage',wrote,typed',isRead,kept⟩ := sound.write_record typed first
      refine ⟨storage',wrote,ih typed' (fun k below => ?_) others⟩
      by_cases same : k = fieldIndex
      · rw [same,isRead,Function.update_self]
      · rw [kept k below same,represents k below,Function.update_of_ne same]

theorem Sound.behaves (sound : Sound types layout accessWidth) (α : Type) :
    Behaves types layout accessWidth α := by
  intro storage typed
  by_cases empty : types.length = 0
  · -- There is no field to access.
    refine ⟨fun _ => .bits 0 0,fun accesses defined => sound.follows typed (fun k below => by omega)
      accesses defined⟩
  · obtain ⟨word,_⟩ := sound.read_isSome typed (Nat.pos_of_ne_zero empty)
    refine ⟨fun k => (read types layout accessWidth storage k).getD word,fun accesses defined =>
      sound.follows typed (fun k below => ?_) accesses defined⟩
    obtain ⟨word',isRead⟩ := sound.read_isSome typed below
    rw [isRead,Option.getD_some]

/-- Some memory of a struct, with nothing but zeros in its integers. -/
def zeroed (contents : α) : LlvmType → Word α
  | .int width => .bits width 0
  | _ => .other contents

theorem zeroed_ofType (contents : α) (type : LlvmType) : (zeroed contents type).OfType type := by
  cases type with
  | int width => exact ⟨0,rfl⟩
  | float | double | ptr _ | array _ _ | struct _ _ => exact ⟨contents,rfl⟩

/-- A container can hold anything before a run. -/
theorem exists_typed (contents : α) {width : Nat} (isElement : layout.elementAt offset = some (.int width))
    (load : BitVec width) : ∃ storage : Storage α,Typed layout storage ∧
      storage[offset]? = some (.bits width load) := by
  cases isStruct : layout.llvmType with
  | struct name elements =>
    have typed : Typed layout (elements.map (zeroed contents)) := by
      refine ⟨name,elements,isStruct,List.forall₂_map_left_iff.mpr ?_⟩
      exact List.forall₂_same.mpr fun type _ => zeroed_ofType contents type
    obtain ⟨_,there,_⟩ := typed.holds isElement
    have inside := (List.getElem?_eq_some_iff.mp there).1
    exact ⟨_,typed.set isElement ⟨load,rfl⟩,List.getElem?_set_self inside⟩
  | int _ | float | double | ptr _ | array _ _ =>
    rw [Layout.elementAt,isStruct] at isElement
    cases isElement

/-- In a struct that is a record, what is written to a bit field reads back. -/
theorem Behaves.write_read (behaves : Behaves types layout accessWidth α) (contents : α)
    {type : MemoirType} (isType : types[i]? = some type) (isOffset : layout.getFieldOffset i = some offset)
    {start stop width bits : Nat} (isBits : bitWidth type = some bits)
    (isRange : layout.getBitFieldRange i = some (start,stop))
    (isElement : layout.elementAt offset = some (.int width)) (load : BitVec width) (value : BitVec bits) :
    (structWrite start stop load (createIntCast (accessWidth i) (fieldType type).2 value)).bind
      (structRead start stop (fieldType type).1 (fieldType type).2 (accessWidth i)) =
        some (createIntCast (accessWidth i) (fieldType type).2 value) := by
  obtain ⟨storage,typed,there⟩ := exists_typed contents isElement load
  obtain ⟨record,follows⟩ := behaves storage typed
  let word : Word α := .bits (accessWidth i) (createIntCast (accessWidth i) (fieldType type).2 value)
  have isValue : IsValue types accessWidth i word := by
    refine ⟨type,isType,?_⟩
    rw [isBits]
    exact ⟨value,rfl⟩
  have below := (List.getElem?_eq_some_iff.mp isType).1
  obtain ⟨storage',wrote,isRead,_⟩ := follows [.write i word,.read i] (by
    intro access member
    simp only [List.mem_cons,List.not_mem_nil,or_false] at member
    rcases member with rfl | rfl
    · exact isValue
    · exact below)
  unfold write at wrote
  rw [isOffset,isRange] at wrote
  simp only [Option.bind_eq_bind,Option.bind_some,there,word] at wrote
  obtain ⟨stored,isStored,rfl⟩ := Option.map_eq_some_iff.mp wrote
  have inside := (List.getElem?_eq_some_iff.mp there).1
  rw [read_bits isType isOffset isRange (List.getElem?_set_self inside),Function.update_self] at isRead
  obtain ⟨read,isRead,same⟩ := Option.map_eq_some_iff.mp isRead
  rw [isStored,Option.bind_some,isRead]
  obtain ⟨_,same⟩ := Word.bits.inj same
  exact congrArg some (eq_of_heq same)

/-- A struct with a well-formed layout is a record in all runs of its accesses exactly when its bit
fields fit. -/
theorem behaves_iff_fits [Inhabited α] (name : String) (converted : convert (.struct name types) = some layout)
    (safe : LayoutSafe types) (accesses : ∀ i type bits,types[i]? = some type →
      bitWidth type = some bits → bits ≤ accessWidth i) :
    Behaves types layout accessWidth α ↔ Fits types layout accessWidth := by
  have formed := (structLayout_wellFormed_iff name types layout converted).mpr safe
  have ranges (i : Nat) (type : MemoirType) (isType : types[i]? = some type) :=
    range_of_bitWidth converted isType
  constructor
  · intro behaves
    have low (i : Nat) (start stop : Nat) (isRange : layout.getBitFieldRange i = some (start,stop)) :
        stop ≤ 32 := by
      obtain ⟨type,bits,offset,isType,isBits,positive,rfl,isOffset,width,isElement,_⟩ :=
        bits_of_range converted formed isRange
      by_contra above
      have read := behaves.write_read default isType isOffset isBits isRange isElement 0 0
      rw [structWrite_overflow start (start + bits) _ _ (by omega) (by omega),Option.bind_none] at read
      exact nomatch read
    intro i type start stop offset isType isRange isOffset
    obtain ⟨type',bits,offset',isType',isBits,positive,rfl,isOffset',width,isElement,inside⟩ :=
      bits_of_range converted formed isRange
    obtain rfl := Option.some.inj (isType.symm.trans isType')
    obtain rfl := Option.some.inj (isOffset.symm.trans isOffset')
    have same := (fieldType_of_bitWidth isBits).1
    have reads : ReadsBack (fieldOf isBits inside (container_le converted low isElement)
        (accesses i type bits isType isBits)) := by
      intro container value
      have read := behaves.write_read default isType isOffset isBits isRange isElement container value
      rw [same] at read
      exact read
    obtain ⟨below,signed⟩ := (readsBack_iff _).mp reads
    refine ⟨below,fun isSigned => ?_⟩
    obtain ⟨bottom,exact_⟩ := signed isSigned
    rw [same,isElement,Option.some.injEq,LlvmType.int.injEq]
    exact ⟨bottom,exact_⟩
  · intro fits
    have low (i : Nat) (start stop : Nat) (isRange : layout.getBitFieldRange i = some (start,stop)) :
        stop ≤ 32 := by
      obtain ⟨type,_,offset,isType,_,_,_,isOffset,_⟩ := bits_of_range converted formed isRange
      exact (fits i type start stop offset isType isRange isOffset).1
    have sound : Sound types layout accessWidth :=
      ⟨formed,ranges,fun offset width isElement => container_le converted low isElement,accesses,fits⟩
    exact sound.behaves α

end

/-- A small number, a flag and a number, whose accesses are of a byte, a bit and a word. -/
def flagged : List MemoirType := [.integer .u2,.integer .boolean,.integer .u32]

theorem flagged_behaves : ∃ layout,convert (.struct "Foo" flagged) = some layout ∧
    Behaves flagged layout (fun i => if i = 1 then 1 else 8) Nat := by
  refine ⟨_,rfl,(behaves_iff_fits "Foo" rfl (by simp [LayoutSafe,flagged,runs,bitWidth,isSize])
    fun i type bits isType isBits => ?_).mpr ?_⟩
  · rcases i with _ | _ | _ | i
    · cases isType; cases isBits; decide
    · cases isType; cases isBits; decide
    · cases isType; cases isBits
    · cases isType
  · intro i type start stop offset isType isRange isOffset
    rcases i with _ | _ | _ | i
    · cases isType; cases isRange; exact ⟨by decide,fun signed => absurd signed (by decide)⟩
    · cases isType; cases isRange; exact ⟨by decide,fun signed => absurd signed (by decide)⟩
    · cases isRange
    · cases isType

end Memoir.StructAccess
