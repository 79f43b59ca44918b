import Memoir.StructLayout
import Mathlib.Tactic.Ring

/-! Lowered accesses of bit fields: the shifts and masks that struct reads and
writes emit, in the compiler's own integer arithmetic. `none` stands for an
undefined C++ shift in the compiler and for a poison shift in what it emits. -/
namespace Memoir.BitField
open TypeLayout

/-- `1 << i` on an `int`, converted to `uint64_t`: bit 31 is the sign. -/
def shiftOne (i : Nat) : Option (BitVec 64) :=
  if i < 32 then some ((1#32 <<< i).signExtend 64) else none

/-- The loop `mask |= 1 << i` over `count` bits from `start`. -/
def orMask (start : Nat) : Nat → BitVec 64 → Option (BitVec 64)
  | 0, mask => some mask
  | count + 1, mask => do
    let bit ← shiftOne start
    orMask (start + 1) count (mask ||| bit)

/-- The integer constant that the builder makes of a `uint64_t` operand. -/
def constant (width : Nat) (value : BitVec 64) : BitVec width := value.setWidth width

def createIntCast {n : Nat} (width : Nat) (isSigned : Bool) (value : BitVec n) : BitVec width :=
  if isSigned then value.signExtend width else value.setWidth width

def createShl {width : Nat} (value : BitVec width) (distance : BitVec 64) : Option (BitVec width) :=
  let amount := (constant width distance).toNat
  if amount < width then some (value <<< amount) else none

def createLShr {width : Nat} (value : BitVec width) (distance : BitVec 64) : Option (BitVec width) :=
  let amount := (constant width distance).toNat
  if amount < width then some (value >>> amount) else none

def createAShr {width : Nat} (value : BitVec width) (distance : BitVec 64) : Option (BitVec width) :=
  let amount := (constant width distance).toNat
  if amount < width then some (value.sshiftRight amount) else none

/-- Bit path of `visitStructReadInst`: the shift distances of a signed field are
taken from the width of the field's own type, in unsigned arithmetic. -/
def structRead {width : Nat} (start stop fieldWidth : Nat) (isSigned : Bool) (accessWidth : Nat)
    (load : BitVec width) : Option (BitVec accessWidth) := do
  let shifted ← if isSigned then do
      let left := BitVec.ofNat 32 fieldWidth - BitVec.ofNat 32 stop
      let right := BitVec.ofNat 32 fieldWidth - BitVec.ofNat 32 (stop - start)
      let load ← createShl load (left.setWidth 64)
      createAShr load (right.setWidth 64)
    else createLShr load (BitVec.ofNat 64 start)
  let mask ← orMask 0 (stop - start) 0
  return createIntCast accessWidth isSigned (shifted &&& constant width mask)

def structWrite {width accessWidth : Nat} (start stop : Nat) (load : BitVec width)
    (valueWritten : BitVec accessWidth) : Option (BitVec width) := do
  let value := createIntCast width false valueWritten
  let mask ← orMask 0 (stop - start) 0
  let value := value &&& constant width mask
  let value ← if start ≠ 0 then createShl value (BitVec.ofNat 64 start) else some value
  let mask ← orMask start (stop - start) 0
  return value ||| (load &&& constant width (~~~mask))

/-- LLVM's bound on the width of an integer type. -/
def maxIntBits : Nat := 2 ^ 24 - 1

structure Field where
  containerWidth : Nat
  start : Nat
  stop : Nat
  fieldWidth : Nat
  isSigned : Bool
  accessWidth : Nat
  width_le : containerWidth ≤ maxIntBits
  range : start + fieldWidth = stop
  inside : stop ≤ containerWidth
  positive : 0 < fieldWidth
  bitField : fieldWidth ≠ getNextSize fieldWidth
  access : fieldWidth ≤ accessWidth

def Field.extend (field : Field) (value : BitVec field.fieldWidth) : BitVec field.accessWidth :=
  createIntCast field.accessWidth field.isSigned value

def ReadsBack (field : Field) : Prop :=
  ∀ (container : BitVec field.containerWidth) (value : BitVec field.fieldWidth),
    (structWrite field.start field.stop container (field.extend value)).bind
      (structRead field.start field.stop field.fieldWidth field.isSigned field.accessWidth) =
    some (field.extend value)

theorem shiftOne_bits (i j : Nat) (small : i < 32) :
    ∃ bit, shiftOne i = some bit ∧
      bit.getLsbD j = decide (j = i ∨ i = 31 ∧ 32 ≤ j ∧ j < 64) := by
  refine ⟨_,if_pos small,?_⟩
  rw [BitVec.getLsbD_signExtend,BitVec.msb_shiftLeft]
  by_cases low : j < 32
  · simp only [show j < 64 by omega,decide_true,low,if_true,Bool.true_and,BitVec.getLsbD_shiftLeft,
      BitVec.getLsbD_one]
    rw [Bool.eq_iff_iff]
    simp
    omega
  · simp only [low,if_false]
    rw [Bool.eq_iff_iff]
    simp [BitVec.getMsbD_eq_getLsbD,BitVec.getLsbD_one]
    omega

theorem orMask_bits : ∀ (count start : Nat) (mask : BitVec 64), start + count ≤ 32 →
    ∃ result, orMask start count mask = some result ∧
      ∀ j, result.getLsbD j = (mask.getLsbD j ||
        decide (start ≤ j ∧ j < start + count ∨
          0 < count ∧ start + count = 32 ∧ 32 ≤ j ∧ j < 64)) := by
  intro count
  induction count with
  | zero =>
    intro start mask _
    refine ⟨mask,rfl,fun j => ?_⟩
    have : ¬(start ≤ j ∧ j < start + 0 ∨ 0 < 0 ∧ start + 0 = 32 ∧ 32 ≤ j ∧ j < 64) := by omega
    simp only [decide_eq_false this,Bool.or_false]
  | succ count ih =>
    intro start mask small
    obtain ⟨bit,shifted,_⟩ := shiftOne_bits start 0 (by omega)
    obtain ⟨result,found,bits⟩ := ih (start + 1) (mask ||| bit) (by omega)
    refine ⟨result,by simp only [orMask,shifted,Option.bind_eq_bind,Option.bind_some,found],
      fun j => ?_⟩
    obtain ⟨bit',shifted',bit_bits⟩ := shiftOne_bits start j (by omega)
    obtain rfl : bit' = bit := Option.some.inj (shifted'.symm.trans shifted)
    rw [bits j,BitVec.getLsbD_or,bit_bits,Bool.or_assoc]
    congr 1
    rw [Bool.eq_iff_iff]
    simp only [Bool.or_eq_true,decide_eq_true_eq]
    omega

theorem orMask_overflow : ∀ (count start : Nat) (mask : BitVec 64), 0 < count →
    32 < start + count → orMask start count mask = none := by
  intro count
  induction count with
  | zero => intro start mask positive; omega
  | succ count ih =>
    intro start mask _ large
    by_cases small : start < 32
    · obtain ⟨bit,shifted,_⟩ := shiftOne_bits start 0 small
      simp only [orMask,shifted,Option.bind_eq_bind,Option.bind_some]
      exact ih _ _ (by omega) (by omega)
    · simp only [orMask,shiftOne,small,if_false,Option.bind_eq_bind,Option.bind_none]

/-- The bits set by the loop over `[start,stop)`: ending at bit 32 sets the sign. -/
def inMask (start stop j : Nat) : Bool :=
  decide (start ≤ j ∧ j < stop ∨ stop = 32 ∧ 32 ≤ j ∧ j < 64)

theorem rangeMask (start stop : Nat) (order : start < stop) (small : stop ≤ 32) :
    ∃ mask, orMask start (stop - start) 0 = some mask ∧
      ∀ j, mask.getLsbD j = inMask start stop j := by
  obtain ⟨mask,found,bits⟩ := orMask_bits (stop - start) start 0 (by omega)
  refine ⟨mask,found,fun j => ?_⟩
  rw [bits j,show BitVec.getLsbD (0 : BitVec 64) j = false by simp,Bool.false_or,inMask,
    decide_eq_decide]
  omega

theorem constant_getLsbD (width : Nat) (value : BitVec 64) (j : Nat) :
    (constant width value).getLsbD j = (decide (j < width) && value.getLsbD j) := by
  simp only [constant,BitVec.getLsbD_setWidth]

theorem constant_toNat (width amount : Nat) (small : amount < 2 ^ 64) :
    (constant width (BitVec.ofNat 64 amount)).toNat = amount % 2 ^ width := by
  simp only [constant,BitVec.toNat_setWidth,BitVec.toNat_ofNat,Nat.mod_eq_of_lt small]

theorem createShl_lt {width : Nat} (value : BitVec width) (amount : Nat) (small : amount < 2 ^ 64)
    (lt : amount < width) :
    createShl value (BitVec.ofNat 64 amount) = some (value <<< amount) := by
  have bound : amount < 2 ^ width := lt.trans Nat.lt_two_pow_self
  simp only [createShl,constant_toNat _ _ small,Nat.mod_eq_of_lt bound,lt,if_true]

theorem createLShr_lt {width : Nat} (value : BitVec width) (amount : Nat) (small : amount < 2 ^ 64)
    (lt : amount < width) :
    createLShr value (BitVec.ofNat 64 amount) = some (value >>> amount) := by
  have bound : amount < 2 ^ width := lt.trans Nat.lt_two_pow_self
  simp only [createLShr,constant_toNat _ _ small,Nat.mod_eq_of_lt bound,lt,if_true]

/-- The distances of the signed path for a field that ends at its own width. -/
theorem distance_zero (fieldWidth : Nat) :
    (BitVec.ofNat 32 fieldWidth - BitVec.ofNat 32 fieldWidth).setWidth 64 = BitVec.ofNat 64 0 := by
  simp

theorem structWrite_bits {width accessWidth : Nat} (start stop : Nat) (load : BitVec width)
    (value : BitVec accessWidth) (order : start < stop) (below : stop ≤ 32)
    (amount_lt : start < width) :
    ∃ stored, structWrite start stop load value = some stored ∧
      ∀ j, stored.getLsbD j = (decide (j < width) &&
        ((decide (start ≤ j) && value.getLsbD (j - start) && inMask 0 (stop - start) (j - start)) ||
          (load.getLsbD j && decide (j < 64) && !inMask start stop j))) := by
  obtain ⟨low,low_eq,low_bits⟩ := rangeMask 0 (stop - start) (by omega) (by omega)
  obtain ⟨mask,mask_eq,mask_bits⟩ := rangeMask start stop order below
  rw [Nat.sub_zero] at low_eq
  have stored_eq : structWrite start stop load value =
      some (((createIntCast width false value &&& constant width low) <<< start) |||
        (load &&& constant width (~~~mask))) := by
    by_cases zero : start = 0
    · subst zero
      rw [Nat.sub_zero] at low_eq mask_eq
      simp only [structWrite,Nat.sub_zero,Option.bind_eq_bind,ne_eq,not_true_eq_false,if_false,
        BitVec.shiftLeft_zero]
      rw [low_eq,← Option.some.inj (low_eq.symm.trans mask_eq)]
      rfl
    · simp only [structWrite,low_eq,mask_eq,Option.bind_eq_bind,Option.bind_some,ne_eq,zero,
        not_false_eq_true,if_true,createShl_lt _ start (by omega) amount_lt]
      rfl
  refine ⟨_,stored_eq,?_⟩
  intro j
  simp only [BitVec.getLsbD_or,BitVec.getLsbD_shiftLeft,BitVec.getLsbD_and,constant_getLsbD,
    BitVec.getLsbD_not,createIntCast,Bool.false_eq_true,if_false,BitVec.getLsbD_setWidth,
    low_bits,mask_bits]
  by_cases inside : j < width
  · have : j - start < width := by omega
    by_cases above : start ≤ j
    · have : ¬ j < start := by omega
      simp [*,Bool.and_assoc]
    · have : j < start := by omega
      simp [*,Bool.and_assoc]
  · simp [inside,BitVec.getLsbD_of_ge load j (by omega)]

theorem structWrite_overflow {width accessWidth : Nat} (start stop : Nat) (load : BitVec width)
    (value : BitVec accessWidth) (order : start < stop) (above : 32 < stop) :
    structWrite start stop load value = none := by
  have overflow : orMask start (stop - start) 0 = none :=
    orMask_overflow _ _ _ (by omega) (by omega)
  simp only [structWrite,overflow,Option.bind_eq_bind,Option.bind_none,ite_self,Option.bind_fun_none]

theorem structRead_unsigned {width : Nat} (start stop fieldWidth accessWidth : Nat)
    (load : BitVec width) (order : start < stop) (below : stop ≤ 32) (amount_lt : start < width) :
    ∃ value, structRead start stop fieldWidth false accessWidth load = some value ∧
      ∀ j, value.getLsbD j = (decide (j < accessWidth) && decide (j < width) &&
        load.getLsbD (start + j) && inMask 0 (stop - start) j) := by
  obtain ⟨mask,mask_eq,mask_bits⟩ := rangeMask 0 (stop - start) (by omega) (by omega)
  rw [Nat.sub_zero] at mask_eq
  refine ⟨createIntCast accessWidth false ((load >>> start) &&& constant width mask),?_,
    fun j => ?_⟩
  · simp only [structRead,Bool.false_eq_true,if_false,Option.bind_eq_bind,
      createLShr_lt load start (by omega) amount_lt,Option.bind_some,mask_eq]
    rfl
  · simp only [createIntCast,Bool.false_eq_true,if_false,BitVec.getLsbD_setWidth,BitVec.getLsbD_and,
      BitVec.getLsbD_ushiftRight,constant_getLsbD,mask_bits]
    by_cases inside : j < width
    · simp [inside,Bool.and_assoc]
    · simp [inside]

/-- A signed field at the bottom of its container: both distances are zero. -/
theorem structRead_signed {width : Nat} (stop fieldWidth accessWidth : Nat) (load : BitVec width)
    (range : fieldWidth = stop) (positive : 0 < stop) (below : stop ≤ 32) (inside : stop ≤ width) :
    ∃ mask, structRead 0 stop fieldWidth true accessWidth load =
        some ((load &&& constant width mask).signExtend accessWidth) ∧
      ∀ j, mask.getLsbD j = inMask 0 stop j := by
  obtain ⟨mask,mask_eq,mask_bits⟩ := rangeMask 0 stop positive below
  rw [Nat.sub_zero] at mask_eq
  refine ⟨mask,?_,mask_bits⟩
  subst range
  have right : createAShr load (BitVec.ofNat 64 0) = some load := by
    have : (constant width (BitVec.ofNat 64 0)).toNat = 0 := by
      rw [constant_toNat _ _ (by omega),Nat.zero_mod]
    simp only [createAShr,this,show 0 < width by omega,if_true,BitVec.sshiftRight_zero]
  simp only [structRead,if_true,Option.bind_eq_bind,Nat.sub_zero,distance_zero,
    createShl_lt load 0 (by omega) (by omega),BitVec.shiftLeft_zero,Option.bind_some,right,mask_eq]
  rfl

theorem two_mul_le_two_pow (n : Nat) (positive : 0 < n) : 2 * n ≤ 2 ^ n := by
  obtain ⟨m,rfl⟩ := Nat.exists_eq_succ_of_ne_zero positive.ne'
  have := Nat.lt_two_pow_self (n := m)
  rw [Nat.succ_eq_add_one,pow_succ]
  omega

theorem wrapped_distance_ge (width start : Nat) (positive : 0 < start) (lt : start < width)
    (width_le : width ≤ maxIntBits) : width ≤ (2 ^ 32 - start) % 2 ^ width := by
  unfold maxIntBits at width_le
  by_cases wide : 32 < width
  · have : 2 ^ 32 < 2 ^ width := Nat.pow_lt_pow_right (by omega) wide
    rw [Nat.mod_eq_of_lt (by omega)]
    omega
  · have split : 2 ^ 32 = 2 ^ width * 2 ^ (32 - width) := by rw [← pow_add]; congr 1; omega
    have room := two_mul_le_two_pow width (by omega)
    have copies : 0 < 2 ^ (32 - width) := Nat.two_pow_pos _
    have wrapped : 2 ^ 32 - start = (2 ^ width - start) + 2 ^ width * (2 ^ (32 - width) - 1) := by
      rw [split,Nat.mul_sub_one]
      have := Nat.le_mul_of_pos_right (2 ^ width) copies
      omega
    rw [wrapped,Nat.add_mul_mod_self_left,Nat.mod_eq_of_lt (by omega)]
    omega

/-- Above the bottom of the container the left distance wraps around. -/
theorem structRead_poison {width : Nat} (start stop fieldWidth accessWidth : Nat)
    (load : BitVec width) (range : start + fieldWidth = stop) (order : start < stop)
    (above : start ≠ 0) (inside : stop ≤ width) (width_le : width ≤ maxIntBits) :
    structRead start stop fieldWidth true accessWidth load = none := by
  have start_le : start ≤ 2 ^ 24 - 1 := by unfold maxIntBits at width_le; omega
  have left : ((BitVec.ofNat 32 fieldWidth - BitVec.ofNat 32 stop).setWidth 64).toNat =
      2 ^ 32 - start := by
    subst range
    simp only [BitVec.toNat_setWidth,BitVec.toNat_sub,BitVec.toNat_ofNat]
    omega
  have amount : ¬ (constant width
      ((BitVec.ofNat 32 fieldWidth - BitVec.ofNat 32 stop).setWidth 64)).toNat < width := by
    rw [constant,BitVec.toNat_setWidth,left,not_lt]
    exact wrapped_distance_ge width start (by omega) (by omega) width_le
  simp only [structRead,if_true,Option.bind_eq_bind,createShl,amount,if_false,Option.bind_none]

namespace Field

theorem extend_low (field : Field) (value : BitVec field.fieldWidth) (j : Nat)
    (low : j < field.fieldWidth) : (field.extend value).getLsbD j = value.getLsbD j := by
  have := field.access
  unfold extend createIntCast
  split
  · rw [BitVec.getLsbD_signExtend]
    simp [low,show j < field.accessWidth by omega]
  · rw [BitVec.getLsbD_setWidth]
    simp [show j < field.accessWidth by omega]

theorem extend_high (field : Field) (value : BitVec field.fieldWidth) (j : Nat)
    (high : field.fieldWidth ≤ j) (below : j < field.accessWidth) :
    (field.extend value).getLsbD j = (field.isSigned && value.msb) := by
  unfold extend createIntCast
  split
  · rename_i signed
    rw [BitVec.getLsbD_signExtend]
    simp [signed,below,not_lt.mpr high]
  · rename_i unsigned
    rw [BitVec.getLsbD_setWidth,BitVec.getLsbD_of_ge value j high]
    simp [unsigned]

theorem width_ne (field : Field) : field.fieldWidth ≠ 32 := by
  intro wide
  have := field.bitField
  rw [wide] at this
  exact this (by decide)

/-- What a write leaves at the position of bit `j` of the field. -/
theorem stored_bit (field : Field) (j : Nat) (low : j < field.fieldWidth) :
    inMask 0 (field.stop - field.start) j = true ∧
      inMask field.start field.stop (field.start + j) = true := by
  have := field.range
  simp only [inMask,decide_eq_true_eq]
  omega

theorem mask_high (field : Field) (j : Nat) (high : field.fieldWidth ≤ j) :
    inMask 0 (field.stop - field.start) j = false := by
  have := field.range
  have := field.width_ne
  simp only [inMask,decide_eq_false_iff_not]
  omega

end Field

theorem readsBack_unsigned (field : Field) (below : field.stop ≤ 32)
    (unsigned : field.isSigned = false) : ReadsBack field := by
  intro container value
  have := field.range
  have := field.inside
  have := field.positive
  obtain ⟨stored,stored_eq,stored_bits⟩ := structWrite_bits field.start field.stop container
    (field.extend value) (by omega) below (by omega)
  obtain ⟨result,result_eq,result_bits⟩ := structRead_unsigned field.start field.stop
    field.fieldWidth field.accessWidth stored (by omega) below (by omega)
  rw [stored_eq,Option.bind_some,unsigned,result_eq,Option.some_inj]
  refine BitVec.eq_of_getLsbD_eq fun j access => ?_
  rw [result_bits j]
  by_cases low : j < field.fieldWidth
  · obtain ⟨mask,range⟩ := field.stored_bit j low
    rw [stored_bits,mask,range,Nat.add_sub_cancel_left,mask]
    simp [show j < field.containerWidth by omega,show field.start + j < field.containerWidth by omega,
      access]
  · rw [field.mask_high j (by omega),field.extend_high value j (by omega) access,unsigned,
      Bool.and_false,Bool.false_and]

theorem readsBack_signed (field : Field) (below : field.stop ≤ 32) (signed : field.isSigned = true)
    (bottom : field.start = 0)
    (exact_width : field.containerWidth = field.fieldWidth ∨ field.accessWidth = field.fieldWidth) :
    ReadsBack field := by
  intro container value
  have range := field.range
  have := field.inside
  have := field.positive
  have access_le := field.access
  obtain ⟨stored,stored_eq,stored_bits⟩ := structWrite_bits field.start field.stop container
    (field.extend value) (by omega) below (by omega)
  have stop_eq : field.fieldWidth = field.stop := by omega
  obtain ⟨mask,result_eq,mask_bits⟩ := structRead_signed field.stop field.fieldWidth
    field.accessWidth stored stop_eq (by omega) below field.inside
  rw [stored_eq,Option.bind_some,signed,bottom,result_eq,Option.some_inj]
  have masked : ∀ j, j < field.fieldWidth →
      (stored &&& constant field.containerWidth mask).getLsbD j = value.getLsbD j := by
    intro j low
    obtain ⟨in_low,in_range⟩ := field.stored_bit j low
    have := stored_bits (field.start + j)
    rw [in_range,Nat.add_sub_cancel_left,in_low,bottom,Nat.zero_add,field.extend_low value j low]
      at this
    rw [bottom,Nat.sub_zero] at in_low
    rw [BitVec.getLsbD_and,constant_getLsbD,mask_bits,in_low,this]
    simp [show j < field.containerWidth by omega]
  refine BitVec.eq_of_getLsbD_eq fun j access => ?_
  by_cases low : j < field.fieldWidth
  · rw [BitVec.getLsbD_signExtend,field.extend_low value j low,← masked j low]
    simp [access,show j < field.containerWidth by omega]
  · obtain same | same := exact_width
    · rw [BitVec.getLsbD_signExtend,field.extend_high value j (by omega) access,signed,
        BitVec.msb_eq_getLsbD_last,BitVec.msb_eq_getLsbD_last]
      simp only [access,decide_true,same,low,if_false,Bool.true_and]
      rw [masked _ (by omega)]
    · exact absurd (same ▸ access) low

theorem not_readsBack_signed (field : Field) (below : field.stop ≤ 32)
    (signed : field.isSigned = true) (bottom : field.start = 0)
    (container_wider : field.containerWidth ≠ field.fieldWidth)
    (access_wider : field.accessWidth ≠ field.fieldWidth) : ¬ ReadsBack field := by
  intro reads
  have range := field.range
  have := field.inside
  have := field.positive
  have := field.access
  have reads := reads 0 (BitVec.allOnes field.fieldWidth)
  have stop_eq : field.fieldWidth = field.stop := by omega
  obtain ⟨stored,stored_eq,-⟩ := structWrite_bits field.start field.stop
    (0 : BitVec field.containerWidth) (field.extend (BitVec.allOnes field.fieldWidth))
    (by omega) below (by omega)
  obtain ⟨mask,result_eq,mask_bits⟩ := structRead_signed field.stop field.fieldWidth
    field.accessWidth stored stop_eq (by omega) below field.inside
  have high := field.mask_high field.fieldWidth le_rfl
  have extended := field.extend_high (BitVec.allOnes field.fieldWidth) field.fieldWidth le_rfl
    (by omega)
  rw [stored_eq,Option.bind_some,signed,bottom,result_eq,Option.some_inj] at reads
  have bit := congrArg (·.getLsbD field.fieldWidth) reads
  have msb : (BitVec.allOnes field.fieldWidth).msb = true := by
    rw [BitVec.msb_allOnes field.positive]
  rw [bottom,Nat.sub_zero] at high
  simp only [extended,signed,msb,Bool.true_and,BitVec.getLsbD_signExtend,BitVec.getLsbD_and,
    show field.fieldWidth < field.containerWidth by omega,if_true,constant_getLsbD,mask_bits,high,
    Bool.and_false,Bool.false_eq_true] at bit

/-- A bit field reads back what is written to it exactly when its range ends by
bit 32 and, if it is signed, it starts its container and one of the container and
the access has the field's own width. -/
theorem readsBack_iff (field : Field) :
    ReadsBack field ↔ field.stop ≤ 32 ∧ (field.isSigned = true → field.start = 0 ∧
      (field.containerWidth = field.fieldWidth ∨ field.accessWidth = field.fieldWidth)) := by
  have order : field.start < field.stop := by have := field.range; have := field.positive; omega
  constructor
  · intro reads
    have below : field.stop ≤ 32 := by
      by_contra above
      have := reads 0 0
      rw [structWrite_overflow _ _ _ _ order (by omega),Option.bind_none] at this
      simp at this
    refine ⟨below,fun signed => ?_⟩
    have bottom : field.start = 0 := by
      by_contra above
      have := reads 0 0
      rw [signed,Option.bind_eq_some_iff] at this
      obtain ⟨stored,-,read⟩ := this
      rw [structRead_poison _ _ _ _ stored field.range order above field.inside field.width_le] at read
      simp at read
    refine ⟨bottom,?_⟩
    by_contra wider
    obtain ⟨container,access⟩ := not_or.mp wider
    exact not_readsBack_signed field below signed bottom container access reads
  · rintro ⟨below,signed_case⟩
    cases signed : field.isSigned with
    | false => exact readsBack_unsigned field below signed
    | true =>
      obtain ⟨bottom,exact_width⟩ := signed_case signed
      exact readsBack_signed field below signed bottom exact_width

/-- A signed two-bit field in an `i8` container, accessed as `i8`. -/
def signedPair : Field where
  containerWidth := 8
  start := 0
  stop := 2
  fieldWidth := 2
  isSigned := true
  accessWidth := 8
  width_le := by decide
  range := by decide
  inside := by decide
  positive := by decide
  bitField := by decide
  access := by decide

/-- Minus one is read back as three. -/
theorem signedPair_reads_three :
    (structWrite 0 2 (0 : BitVec 8) (signedPair.extend (-1))).bind
        (structRead 0 2 2 true 8) = some (3 : BitVec 8) ∧
      signedPair.extend (-1) = (-1 : BitVec 8) ∧ ¬ ReadsBack signedPair :=
  ⟨by decide,rfl,fun reads => absurd (reads 0 (-1)) (by decide)⟩

/-- A write changes no bit of the container outside its range. -/
def WritesOnly (width accessWidth start stop : Nat) : Prop :=
  ∀ (load : BitVec width) (value : BitVec accessWidth),
    ∃ stored, structWrite start stop load value = some stored ∧
      ∀ j, j < start ∨ stop ≤ j → stored.getLsbD j = load.getLsbD j

theorem writesOnly (width accessWidth start stop : Nat) (order : start < stop)
    (amount_lt : start < width) (below : stop ≤ 32) (width_le : width ≤ 64)
    (sign : stop = 32 → width ≤ 32) : WritesOnly width accessWidth start stop := by
  intro load value
  obtain ⟨stored,stored_eq,stored_bits⟩ :=
    structWrite_bits start stop load value order below amount_lt
  refine ⟨stored,stored_eq,fun j outside => ?_⟩
  rw [stored_bits j]
  by_cases inside : j < width
  · have cleared : inMask start stop j = false := by
      simp only [inMask,decide_eq_false_iff_not]
      omega
    have unwritten : (decide (start ≤ j) && inMask 0 (stop - start) (j - start)) = false := by
      simp only [inMask,Bool.and_eq_false_iff,decide_eq_false_iff_not]
      omega
    rw [cleared,Bool.and_right_comm,unwritten]
    simp [inside,show j < 64 by omega]
  · rw [BitVec.getLsbD_of_ge load j (by omega)]
    simp [inside]

/-- The written value reaches a bit below its range when the distance is truncated. -/
theorem amount_lt_of_writesOnly (width accessWidth start stop : Nat) (positive : 0 < width)
    (access : 0 < accessWidth) (order : start < stop)
    (writes : WritesOnly width accessWidth start stop) : start < width := by
  by_contra beyond
  by_cases below : stop ≤ 32
  · obtain ⟨stored,stored_eq,kept⟩ := writes 0 (BitVec.ofNat accessWidth 1)
    obtain ⟨low,low_eq,low_bits⟩ := rangeMask 0 (stop - start) (by omega) (by omega)
    obtain ⟨mask,mask_eq,-⟩ := rangeMask start stop order below
    rw [Nat.sub_zero] at low_eq
    simp only [structWrite,low_eq,mask_eq,Option.bind_eq_bind,Option.bind_some,ne_eq,
      show ¬ start = 0 by omega,not_false_eq_true,if_true,createShl,
      constant_toNat width start (by omega)] at stored_eq
    split at stored_eq
    · rename_i truncated
      obtain rfl := Option.some.inj stored_eq
      have bit := kept (start % 2 ^ width) (.inl (by omega))
      have low_bit : (constant width low).getLsbD 0 = true := by
        rw [constant_getLsbD,low_bits]
        simp only [inMask,positive,decide_true,Bool.true_and,decide_eq_true_eq]
        omega
      simp only [BitVec.getLsbD_or,BitVec.getLsbD_shiftLeft,BitVec.getLsbD_and,truncated,decide_true,
        lt_irrefl,decide_false,Bool.not_false,Nat.sub_self,low_bit,createIntCast] at bit
      simp [positive,access] at bit
    · simp at stored_eq
  · obtain ⟨stored,stored_eq,-⟩ := writes 0 0
    rw [structWrite_overflow _ _ _ _ order (by omega)] at stored_eq
    simp at stored_eq

theorem writesOnly_iff (width accessWidth start stop : Nat) (positive : 0 < width)
    (access : 0 < accessWidth) (order : start < stop) :
    WritesOnly width accessWidth start stop ↔
      start < width ∧ stop ≤ 32 ∧ width ≤ 64 ∧ (stop = 32 → width ≤ 32) := by
  refine ⟨fun writes => ?_,fun ⟨amount_lt,below,width_le,sign⟩ =>
    writesOnly width accessWidth start stop order amount_lt below width_le sign⟩
  have amount_lt := amount_lt_of_writesOnly width accessWidth start stop positive access order
    writes
  obtain ⟨stored,stored_eq,kept⟩ := writes (BitVec.allOnes width) 0
  have below : stop ≤ 32 := by
    by_contra above
    rw [structWrite_overflow _ _ _ _ order (by omega)] at stored_eq
    simp at stored_eq
  obtain ⟨stored',stored_eq',stored_bits⟩ :=
    structWrite_bits start stop (BitVec.allOnes width) (0 : BitVec accessWidth) order below amount_lt
  obtain rfl : stored' = stored := Option.some.inj (stored_eq'.symm.trans stored_eq)
  refine ⟨amount_lt,below,?_,fun sign => ?_⟩
  · by_contra wide
    have bit := kept 64 (.inr (by omega))
    rw [stored_bits] at bit
    simp [show 64 < width by omega] at bit
  · by_contra wide
    have bit := kept 32 (.inr (by omega))
    rw [stored_bits] at bit
    simp [show 32 < width by omega,inMask,sign] at bit

theorem placements_range (width offset : Nat) (types : List (Option Nat)) (fields : List Layout)
    (laid : List.Forall₂ FieldLayout fields types) (start stop at_ : Nat)
    (member : (at_,some (start,stop)) ∈ placements width offset fields) : start < stop := by
  induction laid generalizing width offset with
  | nil => simp [placements] at member
  | @cons field bits fields types head rest ih =>
    cases bits with
    | some bits =>
      obtain ⟨kind,_,positive,_⟩ := head
      simp only [placements,kind,List.mem_cons] at member
      rcases member with same | later
      · cases same
        omega
      · split at later <;> exact ih _ _ later
    | none =>
      simp only [placements,head.1] at member
      split at member <;>
        · simp only [List.mem_cons,Prod.mk.injEq,reduceCtorEq,and_false,false_or] at member
          exact ih _ _ member

theorem emitted_positive (width : Nat) (types : List (Option Nat)) (fields : List Layout)
    (laid : List.Forall₂ FieldLayout fields types) (element : Nat)
    (member : LlvmType.int element ∈ emitted width fields) : 0 < element := by
  induction laid generalizing width with
  | nil =>
    simp only [emitted] at member
    split at member
    · cases List.mem_singleton.mp member
      exact getNextSize_pos width
    · simp at member
  | @cons field bits fields types head rest ih =>
    have own : field.llvmType = .int element → 0 < element := by
      intro same
      cases bits with
      | some bits =>
        obtain ⟨_,type,positive,_⟩ := head
        rw [type] at same
        cases same
        exact positive
      | none =>
        by_contra zero
        exact head.2 element (by omega) same
    cases bits with
    | some bits =>
      obtain ⟨kind,_,positive,_⟩ := head
      simp only [emitted,kind] at member
      split at member
      · simp only [List.mem_cons,LlvmType.int.injEq] at member
        rcases member with rfl | same | later
        · omega
        · exact own same.symm
        · exact ih _ later
      · exact ih _ member
    | none =>
      simp only [emitted,head.1] at member
      split at member
      · simp only [List.mem_cons,LlvmType.int.injEq] at member
        rcases member with rfl | same | later
        · omega
        · exact own same.symm
        · exact ih _ later
      · simp only [List.mem_cons] at member
        rcases member with same | later
        · exact own same.symm
        · exact ih _ later

/-- A write to a bit field of a struct keeps the rest of its container exactly when
the field starts inside the container and ends by bit 32, the container has at most
64 bits, and at most 32 if the field ends at bit 32. -/
theorem structWrite_keeps_iff (name : String) (types : List MemoirType) (layout : Layout)
    (fieldIndex start stop offset width accessWidth : Nat)
    (converted : convert (.struct name types) = some layout)
    (range : layout.getBitFieldRange fieldIndex = some (start,stop))
    (located : layout.getFieldOffset fieldIndex = some offset)
    (container : layout.elementAt offset = some (.int width)) (access : 0 < accessWidth) :
    WritesOnly width accessWidth start stop ↔
      start < width ∧ stop ≤ 32 ∧ width ≤ 64 ∧ (stop = 32 → width ≤ 32) := by
  obtain ⟨fields,rfl,inner⟩ := convert_struct name types layout converted
  have laid := fieldLayouts types fields inner
  rw [structLayout_range,Option.bind_eq_some_iff] at range
  obtain ⟨⟨placedAt,_⟩,placed,rfl⟩ := range
  rw [structLayout_element] at container
  exact writesOnly_iff width accessWidth start stop
    (emitted_positive 0 _ fields laid width (List.mem_of_getElem? container)) access
    (placements_range 0 0 _ fields laid start stop placedAt (List.mem_of_getElem? placed))

/-- A run of odd width that no machine size interrupts, before a plain field. -/
def longRun : List MemoirType :=
  .integer .boolean :: List.replicate 32 (.integer .u2) ++ [.integer .u32]

/-- Writing the first field of an `i65` container clears the last bit of the last. -/
theorem longRun_clobbers :
    ∃ layout, convert (.struct "Foo" longRun) = some layout ∧
      layout.getBitFieldRange 0 = some (0,1) ∧ layout.getFieldOffset 0 = some 0 ∧
      layout.elementAt 0 = some (.int 65) ∧
      (∃ stored, structWrite 0 1 (BitVec.allOnes 65) 1#8 = some stored ∧
        stored.getLsbD 64 = false) ∧ ¬ WritesOnly 65 8 0 1 := by
  refine ⟨_,rfl,by decide +kernel,by decide +kernel,?_,⟨_,rfl,by decide⟩,fun writes => ?_⟩
  · rw [structLayout_element]
    rfl
  obtain ⟨stored,stored_eq,kept⟩ := writes (BitVec.allOnes 65) 1#8
  cases stored_eq
  exact absurd (kept 64 (.inr (by decide))) (by decide)

/-- A field of a short run. -/
theorem structWrite_keeps_byte : WritesOnly 3 8 1 3 :=
  (structWrite_keeps_iff "Foo" [.integer .boolean,.integer .u2,.integer .u32] _ 1 1 3 0 3 8 rfl rfl
    rfl rfl (by decide)).mpr (by decide)

end Memoir.BitField
