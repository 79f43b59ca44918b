import Memoir.Runtime

/-! Strings in sequences of bytes, up to their terminators, and the comparisons of two strings, of
collections that have the type of a string. Strings that differ compare as equal ones do. -/
namespace Memoir
namespace Strings
open Memoir.Runtime (Heap difference)

abbrev Byte := BitVec 8

/-- Every index that is read is below the size of a sequence, so that a `size_t` does not overflow. -/
def indexReadU8 (heap : Heap) (str index : Nat) : Option Byte := do
  let (_,element) ← heap.indexRead str [index]
  return BitVec.ofNat 8 element

/-- The increment of an `int`, where an overflow is undefined. -/
def incrementInt (index : Nat) : Option Nat :=
  if index + 1 < 2 ^ 31 then some (index + 1) else none

def incrementSize (index : Nat) : Option Nat := some (index + 1)

/-- The loop that the comparisons have in common, with the indices where it ends. -/
def compareLoop (read : Nat → Nat → Option Byte) (increment : Nat → Option Nat) (str str2 : Nat) :
    Nat → Nat → Nat → Byte → Byte → Option (Nat × Nat)
  | 0,_,_,_,_ => none
  | rounds + 1,a,b,ac,bc =>
    if ac ≠ 0 ∧ ac = bc then do
      let a ← increment a
      let ac ← read str a
      let b ← increment b
      let bc ← read str2 b
      compareLoop read increment str str2 rounds a b ac bc
    else some (a,b)

def toInt (n : Nat) : Int := Int.bmod n (2 ^ 32)

def strcmpStart (read : Nat → Nat → Option Byte) (rounds str str2 : Nat) : Option Int := do
  let ac ← read str 0
  let bc ← read str2 0
  let (a,b) ← compareLoop read incrementInt str str2 rounds 0 0 ac bc
  return (a : Int) - b

def strcmpSame (read : Nat → Nat → Option Byte) (rounds str a b : Nat) : Option Int := do
  let aa := a
  let bb := b
  let ac ← read str a
  let bc ← read str b
  let (a,b) ← compareLoop read incrementSize str str rounds a b ac bc
  return toInt (difference (difference a aa) (difference b bb))

def strcmpDiff (read : Nat → Nat → Option Byte) (rounds str a str2 b : Nat) : Option Int := do
  let aa := a
  let bb := b
  let ac ← read str a
  let bc ← read str2 b
  let (a,b) ← compareLoop read incrementSize str str2 rounds a b ac bc
  return toInt (difference (difference a aa) (difference b bb))

/-- The bytes from an index on, up to the first that is zero. -/
inductive Held (read : Nat → Nat → Option Byte) (str : Nat) : Nat → List Byte → Prop
  | terminator {index : Nat} (last : read str index = some 0) : Held read str index []
  | byte {index : Nat} {c : Byte} {s : List Byte} (first : read str index = some c) (nonzero : c ≠ 0)
      (rest : Held read str (index + 1) s) : Held read str index (c :: s)

def commonLength : List Byte → List Byte → Nat
  | c :: s,d :: t => if c = d then commonLength s t + 1 else 0
  | _,_ => 0

variable {read : Nat → Nat → Option Byte} {increment : Nat → Option Nat} {str str2 a b rounds : Nat}
  {s t : List Byte}

theorem Held.head (held : Held read str a s) : read str a = some (s.headD 0) := by
  cases held with
  | terminator last => exact last
  | byte first _ _ => exact first

theorem commonLength_self (s : List Byte) : commonLength s s = s.length := by
  induction s with
  | nil => rfl
  | cons c s ih =>
    unfold commonLength
    rw [if_pos rfl,ih]
    rfl

theorem compareLoop_ends (held : Held read str a s) (held' : Held read str2 b t)
    (counts : ∀ i < commonLength s t,
      increment (a + i) = some (a + i + 1) ∧ increment (b + i) = some (b + i + 1))
    (enough : commonLength s t < rounds) :
    compareLoop read increment str str2 rounds a b (s.headD 0) (t.headD 0) =
      some (a + commonLength s t,b + commonLength s t) := by
  induction rounds generalizing a b s t with
  | zero => exact absurd enough (Nat.not_lt_zero _)
  | succ rounds ih =>
    unfold compareLoop
    cases held with
    | terminator last =>
      rw [if_neg (fun both => both.1 rfl)]
      rfl
    | @byte _ c s first nonzero rest =>
      cases held' with
      | terminator last =>
        rw [if_neg (fun both => nonzero both.2)]
        rfl
      | @byte _ d t first' nonzero' rest' =>
        unfold commonLength at enough counts ⊢
        by_cases same : c = d
        · rw [if_pos same] at enough counts ⊢
          rw [if_pos ⟨nonzero,same⟩]
          have step := counts 0 (Nat.succ_pos _)
          have tail := ih rest rest'
            (fun i below => by
              have later := counts (i + 1) (by omega)
              rwa [show a + (i + 1) = a + 1 + i by omega,show b + (i + 1) = b + 1 + i by omega]
                at later)
            (by omega)
          simp only [Nat.add_zero] at step
          rw [Nat.add_right_comm,Nat.add_right_comm b] at tail
          simp only [step.1,step.2,Option.bind_eq_bind,Option.bind_some,rest.head,rest'.head,tail]
          rfl
        · rw [if_neg same,if_neg (fun both => same both.2)]
          rfl

/-- The indices of `memoir_strcmp__start` are of type `int`. -/
theorem compareLoop_overflows (held : Held read str a s) (held' : Held read str2 b t)
    (small : a < 2 ^ 31) (long : 2 ^ 31 ≤ a + commonLength s t) :
    compareLoop read incrementInt str str2 rounds a b (s.headD 0) (t.headD 0) = none := by
  induction rounds generalizing a b s t with
  | zero => rfl
  | succ rounds ih =>
    unfold compareLoop
    cases held with
    | terminator last => exact absurd long (by unfold commonLength; omega)
    | @byte _ c s first nonzero rest =>
      cases held' with
      | terminator last => exact absurd long (by unfold commonLength; omega)
      | @byte _ d t first' nonzero' rest' =>
        unfold commonLength at long
        by_cases same : c = d
        · rw [if_pos same] at long
          rw [if_pos ⟨nonzero,same⟩]
          by_cases room : a + 1 < 2 ^ 31
          · have step : incrementInt a = some (a + 1) := if_pos room
            cases step' : incrementInt b with
            | none => simp [step]
            | some b' =>
              have next : b' = b + 1 := by
                unfold incrementInt at step'
                split_ifs at step'
                exact (Option.some.inj step').symm
              subst next
              simp only [step,Option.bind_eq_bind,Option.bind_some,rest.head,rest'.head]
              exact ih rest rest' room (by omega)
          · have step : incrementInt a = none := if_neg room
            rw [step]
            rfl
        · rw [if_neg same] at long
          omega

/-- The sign of a result is that of the lexicographic order of bytes without sign. -/
structure Sign (result : Int) (s t : List Byte) : Prop where
  zero : result = 0 ↔ s = t
  negative : result < 0 ↔ s < t
  positive : 0 < result ↔ t < s

theorem sign_zero_iff : Sign 0 s t ↔ s = t := by
  constructor
  · intro sign
    exact sign.zero.mp rfl
  · rintro rfl
    have irrefl : ¬s < s := List.lt_irrefl s
    exact ⟨iff_of_true rfl rfl,iff_of_false (Int.lt_irrefl 0) irrefl,
      iff_of_false (Int.lt_irrefl 0) irrefl⟩

inductive Strcmp
  | start (str str2 : Nat)
  | same (str a b : Nat)
  | diff (str a str2 b : Nat)

namespace Strcmp

def run (read : Nat → Nat → Option Byte) (rounds : Nat) : Strcmp → Option Int
  | start str str2 => strcmpStart read rounds str str2
  | same str a b => strcmpSame read rounds str a b
  | diff str a str2 b => strcmpDiff read rounds str a str2 b

def Holds (read : Nat → Nat → Option Byte) (s t : List Byte) : Strcmp → Prop
  | start str str2 => Held read str 0 s ∧ Held read str2 0 t
  | same str a b => Held read str a s ∧ Held read str b t
  | diff str a str2 b => Held read str a s ∧ Held read str2 b t

/-- The call returns, with a result of the right sign that depends on nothing behind a terminator. -/
def Orders (call : Strcmp) (heap : Heap) (s t : List Byte) : Prop :=
  ∃ result,Sign result s t ∧ ∃ count,∀ rounds > count,
    call.run (indexReadU8 heap) rounds = some result ∧
      ∀ read,call.Holds read s t → call.run read rounds = some result

/-- Without start positions the indices are of type `int`. -/
def Indexed (length : Nat) : Strcmp → Prop
  | start _ _ => length < 2 ^ 31
  | _ => True

section

variable {heap : Heap} {call : Strcmp}

theorem Orders.sign {result : Int} {count : Nat}
    (returns : ∀ rounds > count,call.run (indexReadU8 heap) rounds = some result)
    (orders : call.Orders heap s t) : Sign result s t := by
  obtain ⟨result',sign,count',returns'⟩ := orders
  have one := returns (count + count' + 1) (by omega)
  have other := (returns' (count + count' + 1) (by omega)).1
  rw [one] at other
  rwa [Option.some.inj other]

theorem orders_iff_of_zero {count : Nat} (held : call.Holds (indexReadU8 heap) s t)
    (returns : ∀ rounds > count,∀ read,call.Holds read s t → call.run read rounds = some 0) :
    call.Orders heap s t ↔ s = t := by
  rw [← sign_zero_iff]
  constructor
  · exact Orders.sign fun rounds enough => returns rounds enough _ held
  · intro sign
    exact ⟨0,sign,count,fun rounds enough => ⟨returns rounds enough _ held,returns rounds enough⟩⟩

end

theorem position_zero (a b count : Nat) :
    toInt (difference (difference (a + count) a) (difference (b + count) b)) = 0 := by
  have same (start : Nat) : difference (start + count) start = count % 2 ^ 64 := by
    unfold difference
    omega
  have none : difference (count % 2 ^ 64) (count % 2 ^ 64) = 0 := by
    unfold difference
    omega
  rw [same,same,none]
  rfl

/-- Each loop ends at the same place in both strings. -/
theorem run_zero {call : Strcmp} (held : call.Holds read s t)
    (indexed : call.Indexed (commonLength s t)) (enough : commonLength s t < rounds) :
    call.run read rounds = some 0 := by
  have counts (start : Nat) : incrementSize start = some (start + 1) := rfl
  cases call with
  | start str str2 =>
    have counts (i : Nat) (below : i < commonLength s t) : incrementInt (0 + i) = some (0 + i + 1) := by
      change commonLength s t < 2 ^ 31 at indexed
      unfold incrementInt
      rw [if_pos (by omega)]
    have loop := compareLoop_ends held.1 held.2 (fun i below => ⟨counts i below,counts i below⟩) enough
    simp only [run,strcmpStart,held.1.head,held.2.head,Option.bind_eq_bind,Option.bind_some,loop]
    exact congrArg some (Int.sub_self _)
  | same str a b =>
    have loop := compareLoop_ends held.1 held.2 (fun _ _ => ⟨counts _,counts _⟩) enough
    simp only [run,strcmpSame,held.1.head,held.2.head,Option.bind_eq_bind,Option.bind_some,loop]
    exact congrArg some (position_zero a b _)
  | diff str a str2 b =>
    have loop := compareLoop_ends held.1 held.2 (fun _ _ => ⟨counts _,counts _⟩) enough
    simp only [run,strcmpDiff,held.1.head,held.2.head,Option.bind_eq_bind,Option.bind_some,loop]
    exact congrArg some (position_zero a b _)

theorem run_overflows {call : Strcmp} (held : call.Holds read s t)
    (long : ¬call.Indexed (commonLength s t)) : call.run read rounds = none := by
  cases call with
  | start str str2 =>
    change ¬commonLength s t < 2 ^ 31 at long
    have loop : compareLoop read incrementInt str str2 rounds 0 0 (s.headD 0) (t.headD 0) = none :=
      compareLoop_overflows held.1 held.2 (by omega) (by omega)
    simp only [run,strcmpStart,held.1.head,held.2.head,Option.bind_eq_bind,Option.bind_some,loop]
    rfl
  | same str a b => exact absurd trivial long
  | diff str a str2 b => exact absurd trivial long

theorem orders_iff {heap : Heap} {call : Strcmp} (held : call.Holds (indexReadU8 heap) s t) :
    call.Orders heap s t ↔ s = t ∧ call.Indexed s.length := by
  by_cases indexed : call.Indexed (commonLength s t)
  · rw [orders_iff_of_zero held fun rounds enough read held => run_zero held indexed enough]
    constructor
    · rintro rfl
      rw [commonLength_self] at indexed
      exact ⟨rfl,indexed⟩
    · exact And.left
  · apply iff_of_false
    · rintro ⟨result,_,count,returns⟩
      have one := (returns (count + 1) (Nat.lt_succ_self _)).1
      rw [run_overflows held indexed] at one
      exact nomatch one
    · rintro ⟨rfl,small⟩
      rw [commonLength_self] at indexed
      exact indexed small

end Strcmp

/-- Three strings of one character. -/
def letters : Heap where
  memory := [some (.owned (.sequence [97,0])),some (.owned (.sequence [98,0])),
    some (.owned (.sequence [97,0]))]
  views := by
    intro handle sequence first last found
    rcases handle with _ | _ | _ | handle <;> simp at found

theorem letters_held (str : Nat) (c : Byte) (first : indexReadU8 letters str 0 = some c) (nonzero : c ≠ 0)
    (last : indexReadU8 letters str 1 = some 0) : Held (indexReadU8 letters) str 0 [c] :=
  .byte first nonzero (.terminator last)

theorem letters_orders : (Strcmp.start 0 2).Orders letters [97] [97] := by
  have held : (Strcmp.start 0 2).Holds (indexReadU8 letters) [97] [97] :=
    ⟨letters_held 0 97 rfl (by decide) rfl,letters_held 2 97 rfl (by decide) rfl⟩
  have small : (Strcmp.start 0 2).Indexed 1 := (by decide : 1 < 2 ^ 31)
  exact (Strcmp.orders_iff held).mpr ⟨rfl,small⟩

/-- `a` is not found to be less than `b`. -/
theorem letters_not_orders : (Strcmp.diff 0 0 1 0).Holds (indexReadU8 letters) [97] [98] ∧
    ¬(Strcmp.diff 0 0 1 0).Orders letters [97] [98] := by
  have held : (Strcmp.diff 0 0 1 0).Holds (indexReadU8 letters) [97] [98] :=
    ⟨letters_held 0 97 rfl (by decide) rfl,letters_held 1 98 rfl (by decide) rfl⟩
  refine ⟨held,fun orders => ?_⟩
  have sign : Sign 0 [97] [98] :=
    Strcmp.Orders.sign (fun rounds enough => Strcmp.run_zero held trivial enough) orders
  exact absurd (sign.zero.mp rfl) (by decide)

end Strings
end Memoir
