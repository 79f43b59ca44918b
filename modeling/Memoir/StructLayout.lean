import Memoir.TypeLayout
import Mathlib.Data.List.Forall2

/-! Where the layout of a struct type is well formed. The field loop is restated
as a list of placements and a list of elements; a run of bit fields that reaches
a machine size leaves one element more than offsets, and every condition below
comes from that element and from the width of the run open at the end. -/
namespace Memoir.TypeLayout

def bitWidth : MemoirType → Option Nat
  | .integer .u2 | .integer .i2 => some 2
  | .integer .boolean => some 1
  | _ => none

inductive Runs
  | openAt (width : Nat)
  | closedBy (width : Nat) (rest : List (Option Nat))

/-- The first run of bit fields that reaches a machine size, by the width of the
field that closes it and the fields after it, or the run open at the end. -/
def runs (width : Nat) : List (Option Nat) → Runs
  | [] => .openAt width
  | none :: rest => runs 0 rest
  | some bits :: rest =>
    if isSize (width + bits) then .closedBy bits rest else runs (width + bits) rest

/-- No run reaches a machine size and the open one is not just above a power of
two, or only bit fields that fit the field which closed a run follow it. -/
def LayoutSafe (fields : List MemoirType) : Prop :=
  match runs 0 (fields.map bitWidth) with
  | .openAt width => ∀ k, ¬ (2 ^ (k + 3) < width ∧ width < 2 ^ (k + 3) + 8)
  | .closedBy width rest => none ∉ rest ∧ (rest.map (·.getD 0)).sum ≤ width

def Layout.elementAt (layout : Layout) (offset : Nat) : Option LlvmType :=
  match layout.llvmType with
  | .struct _ elements => elements[offset]?
  | _ => none

def Layout.Disjoint (layout : Layout) (i j : Nat) : Prop :=
  layout.getFieldOffset i ≠ layout.getFieldOffset j ∨
    ∃ s e s' e', layout.getBitFieldRange i = some (s,e) ∧
      layout.getBitFieldRange j = some (s',e') ∧ (e ≤ s' ∨ e' ≤ s)

structure WellFormed (fields : List MemoirType) (layout : Layout) : Prop where
  valid : ∀ i, i < fields.length → ∃ offset, layout.getFieldOffset i = some offset ∧
    (layout.elementAt offset).isSome
  plain : ∀ i type, fields[i]? = some type → layout.isBitField i = false →
    ∃ offset field, layout.getFieldOffset i = some offset ∧ convert type = some field ∧
      layout.elementAt offset = some field.llvmType
  bits : ∀ i s e, i < fields.length → layout.getBitFieldRange i = some (s,e) →
    ∃ offset width, layout.getFieldOffset i = some offset ∧
      layout.elementAt offset = some (.int width) ∧ e ≤ width
  disjoint : ∀ i j, i < fields.length → j < fields.length → i ≠ j → layout.Disjoint i j

abbrev Placement := Nat × Option (Nat × Nat)

/-- Offset and bit range of each field, for a loop that stands at `offset` with a
run of `width` bits. -/
def placements (width offset : Nat) : List Layout → List Placement
  | [] => []
  | field :: fields =>
    match bitFieldWidth field with
    | some bits =>
      (offset,some (width,width + bits)) ::
        if isSize (width + bits) then placements 0 (offset + 1) fields
        else placements (width + bits) offset fields
    | none =>
      if width ≠ 0 then (offset + 1,none) :: placements 0 (offset + 2) fields
      else (offset,none) :: placements 0 (offset + 1) fields

def emitted (width : Nat) : List Layout → List LlvmType
  | [] => if width ≠ 0 then [.int (getNextSize width)] else []
  | field :: fields =>
    match bitFieldWidth field with
    | some bits =>
      if isSize (width + bits) then .int (width + bits) :: field.llvmType :: emitted 0 fields
      else emitted (width + bits) fields
    | none =>
      if width ≠ 0 then .int width :: field.llvmType :: emitted 0 fields
      else field.llvmType :: emitted 0 fields

def ranges (fieldIndex : Nat) : List Placement → List (Nat × Nat × Nat)
  | [] => []
  | (_,none) :: rest => ranges (fieldIndex + 1) rest
  | (_,some range) :: rest => (fieldIndex,range) :: ranges (fieldIndex + 1) rest

theorem lookup_ranges (fieldIndex i : Nat) (placed : List Placement) :
    (ranges fieldIndex placed).lookup i =
      if fieldIndex ≤ i then placed[i - fieldIndex]?.bind (·.2) else none := by
  induction placed generalizing fieldIndex with
  | nil => simp [ranges]
  | cons head rest ih =>
    obtain ⟨offset,range⟩ := head
    rcases Nat.lt_trichotomy i fieldIndex with below | rfl | above
    · cases range <;> simp [ranges,ih,List.lookup_cons,show ¬ fieldIndex ≤ i by omega,
        show ¬ fieldIndex + 1 ≤ i by omega,show (i == fieldIndex) = false by simp; omega]
    · cases range <;> simp [ranges,ih]
    · have index : i - fieldIndex = (i - (fieldIndex + 1)) + 1 := by omega
      cases range <;> simp [ranges,ih,List.lookup_cons,index,show fieldIndex ≤ i by omega,
        show fieldIndex + 1 ≤ i by omega,show (i == fieldIndex) = false by simp; omega]

/-- The field loop appends the placements, ranges and elements described above. -/
theorem visitFields_eq (state : StructState) (fieldIndex : Nat) (fields : List Layout) :
    let placed := placements state.currentFieldWidth state.currentFieldOffset fields
    let final := visitFields state fieldIndex fields
    final.fieldOffsets = state.fieldOffsets ++ placed.map (·.1) ∧
      final.bitFieldRanges = state.bitFieldRanges ++ ranges fieldIndex placed ∧
      elements final = state.llvmFieldTypes ++ emitted state.currentFieldWidth fields := by
  induction fields generalizing state fieldIndex with
  | nil =>
    simp only [visitFields,placements,List.map_nil,ranges,List.append_nil,true_and,elements,emitted]
    split <;> simp_all
  | cons field fields ih =>
    simp only [visitFields]
    obtain ⟨offsets,bits,elems⟩ := ih (visitField state fieldIndex field) (fieldIndex + 1)
    rw [offsets,bits,elems]
    cases width : bitFieldWidth field with
    | some bits =>
      by_cases size : isSize (state.currentFieldWidth + bits) = true <;>
        simp [visitField,placements,emitted,ranges,width,size]
    | none =>
      by_cases zero : state.currentFieldWidth = 0 <;>
        simp [visitField,placements,emitted,ranges,width,zero]

theorem structLayout_offset (name : String) (fields : List Layout) (i : Nat) :
    (structLayout name fields).getFieldOffset i = (placements 0 0 fields)[i]?.map (·.1) := by
  obtain ⟨offsets,_,_⟩ := visitFields_eq initialState 0 fields
  simp only [structLayout,Layout.getFieldOffset,offsets]
  simp [initialState]

theorem structLayout_range (name : String) (fields : List Layout) (i : Nat) :
    (structLayout name fields).getBitFieldRange i = (placements 0 0 fields)[i]?.bind (·.2) := by
  obtain ⟨_,bits,_⟩ := visitFields_eq initialState 0 fields
  simp only [structLayout,Layout.getBitFieldRange,bits]
  simp [initialState,lookup_ranges]

theorem structLayout_element (name : String) (fields : List Layout) (offset : Nat) :
    (structLayout name fields).elementAt offset = (emitted 0 fields)[offset]? := by
  obtain ⟨_,_,elems⟩ := visitFields_eq initialState 0 fields
  simp only [structLayout,Layout.elementAt,elems]
  simp [initialState]

/-- A placement that can be read back: its element exists, is the field's own
type or is wide enough for the field's bit range. -/
def Placed (elems : List LlvmType) (field : Layout) : Placement → Prop
  | (offset,none) => elems[offset]? = some field.llvmType
  | (offset,some (_,stop)) => ∃ width, elems[offset]? = some (.int width) ∧ stop ≤ width

def FieldLayout (field : Layout) (bits : Option Nat) : Prop :=
  bitFieldWidth field = bits ∧
    match bits with
    | some width => field.llvmType = .int width ∧ 0 < width ∧ width ≤ 2
    | none => ∀ width, width ≤ 2 → field.llvmType ≠ .int width

theorem visitIntegerType_fieldLayout (type : IntegerType) :
    FieldLayout (visitIntegerType type) (bitWidth (.integer type)) := by
  have wide (n width : Nat) (large : 2 < n) (small : width ≤ 2) : LlvmType.int n ≠ .int width := by
    simp only [ne_eq,LlvmType.int.injEq]
    omega
  cases type with
  | u2 | i2 => exact ⟨rfl,rfl,by decide,by decide⟩
  | boolean => exact ⟨rfl,rfl,by decide,by decide⟩
  | u64 | u32 | u16 | u8 | i64 | i32 | i16 | i8 => exact ⟨rfl,fun width => wide _ width (by decide)⟩

theorem convert_fieldLayout (type : MemoirType) (layout : Layout)
    (converted : convert type = some layout) : FieldLayout layout (bitWidth type) := by
  cases type with
  | integer type =>
    simp only [convert,Option.some.injEq] at converted
    subst layout
    exact visitIntegerType_fieldLayout type
  | float => simp [convert] at converted; subst layout; simp [FieldLayout,bitFieldWidth,bitWidth]
  | double => simp [convert] at converted; subst layout; simp [FieldLayout,bitFieldWidth,bitWidth]
  | pointer => simp [convert] at converted; subst layout; simp [FieldLayout,bitFieldWidth,bitWidth]
  | reference referenced =>
    simp only [convert,Option.bind_eq_bind,Option.bind_eq_some_iff] at converted
    obtain ⟨inner,_,same⟩ := converted
    cases same
    simp [FieldLayout,bitFieldWidth,bitWidth]
  | struct name fields =>
    simp only [convert,Option.bind_eq_bind,Option.bind_eq_some_iff] at converted
    obtain ⟨inner,_,same⟩ := converted
    cases same
    simp [FieldLayout,bitFieldWidth,bitWidth,structLayout]
  | staticTensor element dimensions =>
    rcases dimensions with _ | ⟨length,_ | ⟨length',dimensions⟩⟩
    · simp [convert] at converted
    · simp only [convert,Option.bind_eq_bind,Option.bind_eq_some_iff] at converted
      obtain ⟨inner,_,same⟩ := converted
      cases same
      simp [FieldLayout,bitFieldWidth,bitWidth]
    · simp [convert] at converted
  | tensor element dimensions => simp [convert] at converted
  | assocArray key value => simp [convert] at converted
  | sequence element => simp [convert] at converted

theorem convertFields_forall₂ (types : List MemoirType) (layouts : List Layout)
    (converted : convertFields types = some layouts) :
    List.Forall₂ (fun type layout => convert type = some layout) types layouts := by
  induction types generalizing layouts with
  | nil => simp [convertFields] at converted; subst layouts; exact .nil
  | cons type types ih =>
    simp only [convertFields,Option.bind_eq_bind,Option.bind_eq_some_iff] at converted
    obtain ⟨layout,head,rest,tail,same⟩ := converted
    cases same
    exact .cons head (ih rest tail)

theorem convert_struct (name : String) (types : List MemoirType) (layout : Layout)
    (converted : convert (.struct name types) = some layout) :
    ∃ fields, layout = structLayout name fields ∧
      List.Forall₂ (fun type field => convert type = some field) types fields := by
  simp only [convert,Option.bind_eq_bind,Option.bind_eq_some_iff] at converted
  obtain ⟨fields,inner,same⟩ := converted
  cases same
  exact ⟨fields,rfl,convertFields_forall₂ types fields inner⟩

theorem fieldLayouts (types : List MemoirType) (fields : List Layout)
    (inner : List.Forall₂ (fun type field => convert type = some field) types fields) :
    List.Forall₂ FieldLayout fields (types.map bitWidth) := by
  rw [List.forall₂_map_right_iff]
  exact inner.flip.imp fun field type => convert_fieldLayout type field

theorem placements_length (width offset : Nat) (fields : List Layout) :
    (placements width offset fields).length = fields.length := by
  induction fields generalizing width offset with
  | nil => rfl
  | cons field fields ih =>
    cases bits : bitFieldWidth field with
    | some bits => simp only [placements,bits]; split <;> simp [ih]
    | none => simp only [placements,bits]; split <;> simp [ih]

/-- The loop never goes back: later fields lie further on, or in later bits. -/
def Before (p q : Placement) : Prop :=
  p.1 < q.1 ∨ p.1 = q.1 ∧ ∃ s e s' e', p.2 = some (s,e) ∧ q.2 = some (s',e') ∧ e ≤ s'

/-- Every placement of a loop that stands at `offset` with a run of `width` bits. -/
theorem placements_after (width offset : Nat) (fields : List Layout) (placed : Placement)
    (member : placed ∈ placements width offset fields) :
    offset < placed.1 ∨ placed.1 = offset ∧
      (width = 0 ∨ ∃ s e, placed.2 = some (s,e) ∧ width ≤ s) := by
  induction fields generalizing width offset with
  | nil => simp [placements] at member
  | cons field fields ih =>
    cases kind : bitFieldWidth field with
    | some bits =>
      simp only [placements,kind,List.mem_cons] at member
      rcases member with rfl | later
      · exact Or.inr ⟨rfl,Or.inr ⟨width,width + bits,rfl,le_rfl⟩⟩
      · split at later
        · rcases ih 0 (offset + 1) later with above | ⟨same,_⟩ <;> left <;> omega
        · rcases ih (width + bits) offset later with above | ⟨same,zero | ⟨s,e,range,le⟩⟩
          · exact Or.inl above
          · exact Or.inr ⟨same,Or.inl (by omega)⟩
          · exact Or.inr ⟨same,Or.inr ⟨s,e,range,by omega⟩⟩
    | none =>
      simp only [placements,kind] at member
      split at member
      · rcases List.mem_cons.mp member with rfl | later
        · left; simp
        · rcases ih 0 (offset + 2) later with above | ⟨same,_⟩ <;> left <;> omega
      · rename_i zero
        rcases List.mem_cons.mp member with rfl | later
        · exact Or.inr ⟨rfl,Or.inl (by simpa using zero)⟩
        · rcases ih 0 (offset + 1) later with above | ⟨same,_⟩ <;> left <;> omega

theorem placements_pairwise (width offset : Nat) (types : List (Option Nat)) (fields : List Layout)
    (laid : List.Forall₂ FieldLayout fields types) :
    (placements width offset fields).Pairwise Before := by
  induction laid generalizing width offset with
  | nil => exact .nil
  | @cons field bits fields types head rest ih =>
    cases bits with
    | some bits =>
      simp only [placements,head.1]
      refine List.pairwise_cons.mpr ⟨?_,by split <;> exact ih _ _⟩
      intro later member
      split at member
      · rcases placements_after _ _ _ _ member with above | ⟨same,_⟩ <;> left <;> simp only <;> omega
      · rcases placements_after _ _ _ _ member with above | ⟨same,zero | ⟨s,e,range,le⟩⟩
        · exact Or.inl above
        · have positive := head.2.2.1
          omega
        · exact Or.inr ⟨same.symm,width,width + bits,s,e,rfl,range,le⟩
    | none =>
      simp only [placements,head.1]
      split
      · refine List.pairwise_cons.mpr ⟨?_,ih _ _⟩
        intro later member
        rcases placements_after _ _ _ _ member with above | ⟨same,_⟩ <;> left <;> simp only <;> omega
      · refine List.pairwise_cons.mpr ⟨?_,ih _ _⟩
        intro later member
        rcases placements_after _ _ _ _ member with above | ⟨same,_⟩ <;> left <;> simp only <;> omega

/-- Behind the element left over from a closed run, exactly the bit fields that
fit this element are placed right. -/
theorem placed_after_closing (types : List (Option Nat)) (fields : List Layout)
    (laid : List.Forall₂ FieldLayout fields types) (elems : List LlvmType)
    (width offset left : Nat) (small : left ≤ 2) (fits : width ≤ left)
    (length : elems.length = offset + 1) (extra : elems[offset]? = some (.int left)) :
    List.Forall₂ (Placed (elems ++ emitted width fields)) fields (placements width offset fields) ↔
      none ∉ types ∧ width + (types.map (·.getD 0)).sum ≤ left := by
  induction laid generalizing width with
  | nil => simp [placements,fits]
  | @cons field bits fields types head rest ih =>
    have element (later : List LlvmType) : (elems ++ later)[offset]? = some (.int left) := by
      rw [List.getElem?_append_left (by omega),extra]
    cases bits with
    | some bits =>
      obtain ⟨kind,_,positive,_⟩ := head
      by_cases within : width + bits ≤ left
      · have size : isSize (width + bits) = false := by
          simp only [isSize,Bool.or_eq_false_iff,beq_eq_false_iff_ne]
          omega
        simp only [placements,emitted,kind,size,Bool.false_eq_true,if_false,List.forall₂_cons,
          ih (width + bits) within]
        simp only [Placed,element,Option.some.injEq,LlvmType.int.injEq,exists_eq_left',within,
          true_and,List.mem_cons,reduceCtorEq,false_or,List.map_cons,Option.getD_some,List.sum_cons,
          Nat.add_assoc]
      · simp only [placements,emitted,kind,List.forall₂_cons]
        constructor
        · rintro ⟨placed,_⟩
          simp only [Placed,element,Option.some.injEq,LlvmType.int.injEq,exists_eq_left'] at placed
          contradiction
        · rintro ⟨_,sum⟩
          simp only [List.map_cons,Option.getD_some,List.sum_cons] at sum
          omega
    | none =>
      obtain ⟨kind,other⟩ := head
      have misplaced : ¬ List.Forall₂ (Placed (elems ++ emitted width (field :: fields))) (field :: fields)
          (placements width offset (field :: fields)) := by
        by_cases zero : width = 0
        · simp only [placements,kind,zero,ne_eq,not_true_eq_false,if_false,List.forall₂_cons]
          rintro ⟨placed,_⟩
          simp only [Placed,element,Option.some.injEq] at placed
          exact other left small placed.symm
        · simp only [placements,emitted,kind,zero,ne_eq,not_false_eq_true,if_true,List.forall₂_cons]
          rintro ⟨placed,_⟩
          simp only [Placed] at placed
          rw [List.getElem?_append_right (by omega),length,Nat.sub_self] at placed
          simp only [List.getElem?_cons_zero,Option.some.injEq] at placed
          exact other width (by omega) placed.symm
      simp only [misplaced,List.mem_cons,true_or,not_true_eq_false,false_and]

/-- Every placement can be read back, also those of the run that is still open,
exactly for the runs that the safety condition admits. -/
theorem placed_iff_runs (types : List (Option Nat)) (fields : List Layout)
    (laid : List.Forall₂ FieldLayout fields types) (elems : List LlvmType)
    (width offset : Nat) (length : elems.length = offset) :
    List.Forall₂ (Placed (elems ++ emitted width fields)) fields (placements width offset fields) ∧
        (width ≠ 0 → ∃ w, (elems ++ emitted width fields)[offset]? = some (.int w) ∧ width ≤ w) ↔
      match runs width types with
      | .openAt last => last ≤ getNextSize last
      | .closedBy left rest => none ∉ rest ∧ (rest.map (·.getD 0)).sum ≤ left := by
  induction laid generalizing width offset elems with
  | nil =>
    by_cases zero : width = 0
    · simp [placements,runs,zero]
    · simp [placements,emitted,runs,zero,← length]
  | @cons field bits fields types head rest ih =>
    cases bits with
    | some bits =>
      obtain ⟨kind,llvm,positive,small⟩ := head
      by_cases size : isSize (width + bits) = true
      · have after := placed_after_closing types fields rest
          (elems ++ [.int (width + bits),.int bits]) 0 (offset + 1) bits small (by omega)
          (by simp [length]) (by simp [← length])
        simp only [List.append_assoc,List.cons_append,List.nil_append,Nat.zero_add] at after
        simp only [placements,emitted,runs,kind,llvm,size,if_true,List.forall₂_cons,after]
        simp [Placed,← length]
      · have tail := ih elems (width + bits) offset length
        simp only [show width + bits ≠ 0 by omega,ne_eq,not_false_eq_true,forall_const] at tail
        simp only [placements,emitted,runs,kind,size,Bool.false_eq_true,if_false,List.forall₂_cons,
          ← tail]
        constructor
        · rintro ⟨⟨placed,others⟩,_⟩
          exact ⟨others,placed⟩
        · rintro ⟨others,w,element,enough⟩
          exact ⟨⟨⟨w,element,enough⟩,others⟩,fun _ => ⟨w,element,by omega⟩⟩
    | none =>
      obtain ⟨kind,_⟩ := head
      by_cases zero : width = 0
      · have tail := ih (elems ++ [field.llvmType]) 0 (offset + 1) (by simp [length])
        simp only [ne_eq,not_true_eq_false,false_implies,and_true,List.append_assoc,
          List.cons_append,List.nil_append] at tail
        simp only [placements,emitted,runs,kind,zero,ne_eq,not_true_eq_false,if_false,
          List.forall₂_cons,tail,false_implies,and_true]
        simp [Placed,← length]
      · have tail := ih (elems ++ [.int width,field.llvmType]) 0 (offset + 2) (by simp [length])
        simp only [ne_eq,not_true_eq_false,false_implies,and_true,List.append_assoc,
          List.cons_append,List.nil_append] at tail
        simp only [placements,emitted,runs,kind,zero,ne_eq,not_false_eq_true,if_true,
          List.forall₂_cons,tail,forall_const]
        simp [Placed,← length]

/-- The three shift-or steps of `getNextSize`. -/
private def smear (m : Nat) : Nat :=
  let m := m ||| (m >>> 1)
  let m := m ||| (m >>> 2)
  m ||| (m >>> 4)

private theorem le_smear (m : Nat) : m ≤ smear m :=
  (Nat.left_le_or.trans Nat.left_le_or).trans Nat.left_le_or

private theorem smear_ones (k : Nat) : smear (2 ^ k - 1) = 2 ^ k - 1 := by
  have absorb (j : Nat) : (2 ^ k - 1) ||| ((2 ^ k - 1) >>> j) = 2 ^ k - 1 := by
    apply Nat.eq_of_testBit_eq
    intro i
    rw [Nat.testBit_or,Nat.testBit_shiftRight,Nat.testBit_two_pow_sub_one,
      Nat.testBit_two_pow_sub_one]
    by_cases inside : i < k
    · simp [inside]
    · simp [inside,show ¬ j + i < k by omega]
  simp only [smear,absorb]

/-- Only numbers of ones alone are left as they are by smearing. -/
private theorem ones_of_smear (m : Nat) (fixed : smear m = m) : ∃ k, m = 2 ^ k - 1 := by
  have once : m ||| (m >>> 1) = m := by
    have upper : m ||| (m >>> 1) ≤ smear m := Nat.left_le_or.trans Nat.left_le_or
    exact Nat.le_antisymm (upper.trans_eq fixed) Nat.left_le_or
  have down (i : Nat) (set : m.testBit (i + 1) = true) : m.testBit i = true := by
    rw [← once,Nat.testBit_or,Nat.testBit_shiftRight,Nat.add_comm 1 i,set,Bool.or_true]
  have below (i j : Nat) (set : m.testBit (i + j) = true) : m.testBit i = true := by
    induction j with
    | zero => exact set
    | succ j ih => exact ih (down _ set)
  by_cases zero : m = 0
  · exact ⟨0,by simpa using zero⟩
  · refine ⟨m.log2 + 1,Nat.eq_of_testBit_eq fun i => ?_⟩
    rw [Nat.testBit_two_pow_sub_one]
    by_cases inside : i ≤ m.log2
    · have top : m.testBit m.log2 = true := Nat.testBit_log2 zero
      rw [show m.log2 = i + (m.log2 - i) by omega] at top
      simp [below i _ top,show i < m.log2 + 1 by omega]
    · have large : m < 2 ^ i := (Nat.log2_lt zero).mp (by omega)
      simp [Nat.testBit_lt_two_pow large,show ¬ i < m.log2 + 1 by omega]

theorem getNextSize_pos (n : Nat) : 0 < getNextSize n := by
  unfold getNextSize
  split
  · omega
  · simp only [Nat.shiftLeft_eq]
    omega

/-- Rounding up falls short just above a power of two, and nowhere else. -/
theorem le_getNextSize_iff (n : Nat) :
    n ≤ getNextSize n ↔ ∀ k, ¬ (2 ^ (k + 3) < n ∧ n < 2 ^ (k + 3) + 8) := by
  have power (k : Nat) : 2 ^ (k + 3) = 8 * 2 ^ k := by rw [pow_add]; omega
  simp only [power]
  by_cases byte : n < 8
  · have low : getNextSize n = 8 := by simp [getNextSize,byte]
    refine iff_of_true (by omega) fun k => ?_
    have positive := Nat.two_pow_pos k
    omega
  · have value : getNextSize n = 8 * (smear (n / 8 - 1) + 1) := by
      have quotient : n >>> 3 = n / 8 := Nat.shiftRight_eq_div_pow n 3
      simp only [getNextSize,byte,if_false,smear,quotient,Nat.shiftLeft_eq]
      omega
    rw [value]
    have lower := le_smear (n / 8 - 1)
    constructor
    · intro enough k between
      have ones : n / 8 - 1 = 2 ^ k - 1 := by omega
      rw [ones,smear_ones] at enough
      omega
    · intro apart
      by_contra short
      have fixed : smear (n / 8 - 1) = n / 8 - 1 := by omega
      obtain ⟨k,ones⟩ := ones_of_smear _ fixed
      have positive := Nat.two_pow_pos k
      exact apart k (by omega)

/-- Placements read back through the accessors of the layout. -/
theorem placed_iff_wellFormed (name : String) (types : List MemoirType) (fields : List Layout)
    (inner : List.Forall₂ (fun type field => convert type = some field) types fields)
    (laid : List.Forall₂ FieldLayout fields (types.map bitWidth)) :
    WellFormed types (structLayout name fields) ↔
      List.Forall₂ (Placed (emitted 0 fields)) fields (placements 0 0 fields) := by
  have size : types.length = fields.length := inner.length_eq
  have count : (placements 0 0 fields).length = fields.length := placements_length 0 0 fields
  have converted (i : Nat) (left : i < types.length) (right : i < fields.length) :
      convert types[i] = some fields[i] := inner.get left right
  rw [List.forall₂_iff_get]
  simp only [List.get_eq_getElem]
  constructor
  · intro formed
    refine ⟨count.symm,fun i inFields inPlaced => ?_⟩
    have offset := structLayout_offset name fields i
    have range := structLayout_range name fields i
    simp only [List.getElem?_eq_getElem inPlaced,Option.map_some,Option.bind_some] at offset range
    cases kind : (placements 0 0 fields)[i] with
    | mk o bits =>
      rw [kind] at offset range
      cases bits with
      | none =>
        obtain ⟨o',field,located,typed,element⟩ := formed.plain i types[i] (by simp)
          (by simp [Layout.isBitField,range])
        cases Option.some.inj (offset.symm.trans located)
        cases Option.some.inj ((converted i (by omega) inFields).symm.trans typed)
        simpa only [Placed,structLayout_element] using element
      | some bits =>
        obtain ⟨o',width,located,element,enough⟩ := formed.bits i bits.1 bits.2 (by omega) range
        cases Option.some.inj (offset.symm.trans located)
        exact ⟨width,by simpa only [structLayout_element] using element,enough⟩
  · rintro ⟨_,placed⟩
    have located (i : Nat) (inside : i < types.length) :
        ∃ inPlaced : i < (placements 0 0 fields).length,
          (structLayout name fields).getFieldOffset i = some (placements 0 0 fields)[i].1 ∧
          (structLayout name fields).getBitFieldRange i = (placements 0 0 fields)[i].2 := by
      have inPlaced : i < (placements 0 0 fields).length := by omega
      refine ⟨inPlaced,?_,?_⟩
      · simp [structLayout_offset,List.getElem?_eq_getElem inPlaced]
      · simp [structLayout_range,List.getElem?_eq_getElem inPlaced]
    refine ⟨fun i inside => ?_,fun i type found unranged => ?_,fun i s e inside ranged => ?_,
      fun i j inI inJ different => ?_⟩
    · obtain ⟨inPlaced,offset,_⟩ := located i inside
      refine ⟨_,offset,?_⟩
      have read := placed i (by omega) inPlaced
      rw [structLayout_element]
      cases kind : (placements 0 0 fields)[i] with
      | mk o bits =>
        rw [kind] at read
        cases bits with
        | none => simp only [Placed] at read; simp [read]
        | some bits => obtain ⟨width,element,_⟩ := read; simp [element]
    · obtain ⟨inside,rfl⟩ := List.getElem?_eq_some_iff.mp found
      obtain ⟨inPlaced,offset,range⟩ := located i inside
      have read := placed i (by omega) inPlaced
      cases kind : (placements 0 0 fields)[i] with
      | mk o bits =>
        rw [kind] at read offset range
        cases bits with
        | none =>
          exact ⟨o,fields[i],offset,converted i inside (by omega),
            by simpa only [structLayout_element,Placed] using read⟩
        | some bits => simp [Layout.isBitField,range] at unranged
    · obtain ⟨inPlaced,offset,range⟩ := located i inside
      have read := placed i (by omega) inPlaced
      cases kind : (placements 0 0 fields)[i] with
      | mk o bits =>
        rw [kind] at read offset range
        rw [range] at ranged
        cases ranged
        obtain ⟨width,element,enough⟩ := read
        exact ⟨o,width,offset,by simpa only [structLayout_element] using element,enough⟩
    · obtain ⟨_,offsetI,rangeI⟩ := located i inI
      obtain ⟨_,offsetJ,rangeJ⟩ := located j inJ
      have apart := List.pairwise_iff_getElem.mp (placements_pairwise 0 0 _ fields laid)
      rw [Layout.Disjoint,offsetI,offsetJ,rangeI,rangeJ]
      rcases Nat.lt_or_gt_of_ne different with before | after
      · rcases apart i j (by omega) (by omega) before with lower | ⟨_,s,e,s',e',left,right,le⟩
        · exact Or.inl fun same => by simp only [Option.some.injEq] at same; omega
        · exact Or.inr ⟨s,e,s',e',left,right,Or.inl le⟩
      · rcases apart j i (by omega) (by omega) after with lower | ⟨_,s,e,s',e',left,right,le⟩
        · exact Or.inl fun same => by simp only [Option.some.injEq] at same; omega
        · exact Or.inr ⟨s',e',s,e,right,left,Or.inr le⟩

/-- The layout of a struct type is well formed exactly for the safe field lists. -/
theorem structLayout_wellFormed_iff (name : String) (types : List MemoirType) (layout : Layout)
    (converted : convert (.struct name types) = some layout) :
    WellFormed types layout ↔ LayoutSafe types := by
  obtain ⟨fields,rfl,inner⟩ := convert_struct name types layout converted
  have laid := fieldLayouts types fields inner
  have placed := placed_iff_runs (types.map bitWidth) fields laid [] 0 0 rfl
  simp only [List.nil_append,ne_eq,not_true_eq_false,false_implies,and_true] at placed
  rw [placed_iff_wellFormed name types fields inner laid,placed,LayoutSafe]
  cases runs 0 (types.map bitWidth) with
  | openAt width => exact le_getNextSize_iff width
  | closedBy width rest => rfl

/-- A run of bit fields that a plain field closes. -/
theorem structLayout_wellFormed_run :
    ∃ layout, convert (.struct "Foo" [.integer .u2,.integer .boolean,.integer .u32]) = some layout ∧
      WellFormed [.integer .u2,.integer .boolean,.integer .u32] layout :=
  ⟨_,rfl,(structLayout_wellFormed_iff "Foo" _ _ rfl).mpr
    (by simp [LayoutSafe,runs,bitWidth,isSize])⟩

/-- Four 2-bit fields fill a byte; the field after them is then looked up in the
left-over 2-bit element. -/
theorem structLayout_malformed :
    ∃ layout, convert (.struct "Foo" [.integer .u2,.integer .u2,.integer .u2,.integer .u2,
        .integer .u32]) = some layout ∧
      ¬ WellFormed [.integer .u2,.integer .u2,.integer .u2,.integer .u2,.integer .u32] layout := by
  refine ⟨_,rfl,fun formed => ?_⟩
  obtain ⟨offset,field,located,converted,element⟩ := formed.plain 4 (.integer .u32) rfl rfl
  cases located
  cases converted
  cases element

end Memoir.TypeLayout
