import Mathlib.Data.List.TakeWhile
import Mathlib.Order.Bounds.Basic
import Memoir.Strings

/-! The scans of a string for the characters of a C string. A byte of the sequence has no sign and a
`char` has one, so that only bytes below 128 are found. -/
namespace Memoir
namespace Strings
open Memoir.Runtime (Heap)

/-- A byte and a `char`, both converted to `int`. -/
def equalsChar (pc a : Byte) : Bool := decide ((pc.toNat : Int) = a.toInt)

/-- The inner loop of `memoir_strspn`, which compares with the terminator of `accept` as well. -/
def spans (pc : Byte) : List Byte → Bool
  | [] => equalsChar pc 0
  | a :: accept => equalsChar pc a || spans pc accept

def strspnLoop (read : Nat → Nat → Option Byte) (str : Nat) (accept : List Byte) :
    Nat → Nat → Nat → Byte → Option Nat
  | 0,_,_,_ => none
  | rounds + 1,p,count,pc =>
    if pc = 0 then some count
    else if spans pc accept then do
      let pc ← read str (p + 1)
      strspnLoop read str accept rounds (p + 1) (count + 1) pc
    else some count

def strspn (read : Nat → Nat → Option Byte) (rounds str : Nat) (accept : List Byte) (start : Nat) :
    Option Nat := do
  let pc ← read str start
  strspnLoop read str accept rounds start 0 pc

def breaks (pc : Byte) : List Byte → Bool
  | [] => false
  | a :: accept => equalsChar pc a || breaks pc accept

def strpbrkLoop (read : Nat → Nat → Option Byte) (str : Nat) (accept : List Byte) :
    Nat → Nat → Byte → Option Nat
  | 0,_,_ => none
  | rounds + 1,p,pc =>
    if pc = 0 then some 0
    else if breaks pc accept then some p
    else do
      let pc ← read str (p + 1)
      strpbrkLoop read str accept rounds (p + 1) pc

def strpbrk (read : Nat → Nat → Option Byte) (rounds str : Nat) (accept : List Byte) (start : Nat) :
    Option Nat := do
  let pc ← read str start
  strpbrkLoop read str accept rounds start pc

variable {read : Nat → Nat → Option Byte} {str p rounds count start : Nat} {s accept : List Byte}
  {c : Byte}

theorem equalsChar_iff (pc a : Byte) : equalsChar pc a = true ↔ pc = a ∧ pc.toNat < 128 := by
  have bound := pc.isLt
  have bound' := a.isLt
  unfold equalsChar
  rw [decide_eq_true_iff,BitVec.toInt_eq_toNat_cond,← BitVec.toNat_inj]
  split_ifs with small
  · omega
  · omega

theorem breaks_iff : breaks c accept = true ↔ c ∈ accept ∧ c.toNat < 128 := by
  induction accept with
  | nil => simp [breaks]
  | cons a accept ih =>
    rw [breaks,Bool.or_eq_true,equalsChar_iff,ih,List.mem_cons,or_and_right]

/-- No byte of a string is equal to the terminator. -/
theorem spans_iff (nonzero : c ≠ 0) : spans c accept = true ↔ c ∈ accept ∧ c.toNat < 128 := by
  induction accept with
  | nil => simpa [spans,equalsChar_iff] using fun none => absurd none nonzero
  | cons a accept ih =>
    rw [spans,Bool.or_eq_true,equalsChar_iff,ih,List.mem_cons,or_and_right]

/-- The prefix that `memoir_strspn` counts. -/
def spanned (accept s : List Byte) : List Byte :=
  s.takeWhile fun c => decide (c ∈ accept ∧ c.toNat < 128)

theorem strspnLoop_ends (held : Held read str p s) (enough : s.length < rounds) :
    strspnLoop read str accept rounds p count (s.headD 0) = some (count + (spanned accept s).length) := by
  induction held generalizing rounds count with
  | terminator last =>
    cases rounds with
    | zero => exact absurd enough (Nat.not_lt_zero _)
    | succ rounds => rfl
  | @byte p c s first nonzero rest ih =>
    cases rounds with
    | zero => exact absurd enough (Nat.not_lt_zero _)
    | succ rounds =>
      rw [List.headD_cons,strspnLoop,if_neg nonzero]
      unfold spanned
      by_cases accepted : c ∈ accept ∧ c.toNat < 128
      · have next : strspnLoop read str accept rounds (p + 1) (count + 1) (s.headD 0) = _ :=
          ih (Nat.lt_of_succ_lt_succ enough)
        rw [if_pos ((spans_iff nonzero).mpr accepted),List.takeWhile_cons,if_pos (decide_eq_true accepted),rest.head,
          List.length_cons,Option.bind_eq_bind,Option.bind_some,next]
        congr 1
        unfold spanned
        omega
      · rw [if_neg (fun true_ => accepted ((spans_iff nonzero).mp true_)),
          List.takeWhile_cons,
          if_neg (fun true_ => accepted (of_decide_eq_true true_))]
        rfl

def broken (accept : List Byte) : Nat → List Byte → Nat
  | _,[] => 0
  | start,c :: s => if c ∈ accept ∧ c.toNat < 128 then start else broken accept (start + 1) s

theorem strpbrkLoop_ends (held : Held read str p s) (enough : s.length < rounds) :
    strpbrkLoop read str accept rounds p (s.headD 0) = some (broken accept p s) := by
  induction held generalizing rounds with
  | terminator last =>
    cases rounds with
    | zero => exact absurd enough (Nat.not_lt_zero _)
    | succ rounds => rfl
  | @byte p c s first nonzero rest ih =>
    cases rounds with
    | zero => exact absurd enough (Nat.not_lt_zero _)
    | succ rounds =>
      rw [List.headD_cons,strpbrkLoop,if_neg nonzero,broken]
      by_cases accepted : c ∈ accept ∧ c.toNat < 128
      · rw [if_pos accepted,if_pos (breaks_iff.mpr accepted)]
      · rw [if_neg accepted,if_neg (fun true_ => accepted (breaks_iff.mp true_)),rest.head]
        exact ih (Nat.lt_of_succ_lt_succ enough)

def Spans (accept s : List Byte) (result : Nat) : Prop :=
  IsGreatest {k | k ≤ s.length ∧ ∀ c ∈ s.take k,c ∈ accept} result

theorem le_takeWhile {k : Nat} (inside : k ≤ s.length) (all : ∀ c ∈ s.take k,c ∈ accept) :
    k ≤ (s.takeWhile (· ∈ accept)).length := by
  induction s generalizing k with
  | nil => exact inside
  | cons c s ih =>
    cases k with
    | zero => exact Nat.zero_le _
    | succ k =>
      rw [List.take_succ_cons,List.forall_mem_cons] at all
      rw [List.takeWhile_cons,if_pos (decide_eq_true all.1)]
      exact Nat.succ_le_succ (ih (Nat.le_of_succ_le_succ inside) all.2)

theorem takeWhile_spans (accept s : List Byte) : Spans accept s (s.takeWhile (· ∈ accept)).length := by
  have whole := List.takeWhile_prefix (l := s) fun c => decide (c ∈ accept)
  refine ⟨⟨whole.length_le,?_⟩,fun k bounds => le_takeWhile bounds.1 bounds.2⟩
  rw [← List.prefix_iff_eq_take.mp whole]
  intro c member
  have accepted := List.mem_takeWhile_imp (p := fun c => decide (c ∈ accept)) member
  exact of_decide_eq_true accepted

theorem spanned_iff : Spans accept s (spanned accept s).length ↔
    ∀ c ∈ s.takeWhile (· ∈ accept),c.toNat < 128 := by
  have longest := takeWhile_spans accept s
  have same : Spans accept s (spanned accept s).length ↔
      (spanned accept s).length = (s.takeWhile (· ∈ accept)).length :=
    ⟨fun spans => spans.unique longest,fun same => same ▸ longest⟩
  rw [same]
  unfold spanned
  clear longest same
  induction s with
  | nil => simp
  | cons c s ih =>
    by_cases member : c ∈ accept
    · rw [List.takeWhile_cons,List.takeWhile_cons,if_pos (decide_eq_true member),List.forall_mem_cons]
      by_cases small : c.toNat < 128
      · rw [if_pos (decide_eq_true ⟨member,small⟩),List.length_cons,List.length_cons,Nat.succ_inj,
          and_iff_right small]
        exact ih
      · rw [if_neg (fun true_ => small (of_decide_eq_true true_).2)]
        apply iff_of_false
        · exact (Nat.succ_ne_zero _).symm
        · exact fun all => small all.1
    · rw [List.takeWhile_cons,List.takeWhile_cons,if_neg (fun true_ => member (of_decide_eq_true true_).1),
        if_neg (fun true_ => member (of_decide_eq_true true_))]
      exact iff_of_true rfl fun _ none => absurd none List.not_mem_nil

/-- The least position of an accepted byte, or `0` if and only if there is none. -/
structure Breaks (accept : List Byte) (start : Nat) (s : List Byte) (result : Nat) : Prop where
  zero : result = 0 ↔ ∀ c ∈ s,c ∉ accept
  least : (∃ c ∈ s,c ∈ accept) →
    IsLeast {p | ∃ i c,s[i]? = some c ∧ c ∈ accept ∧ p = start + i} result

theorem breaks_cons {result : Nat} (absent : c ∉ accept) :
    Breaks accept start (c :: s) result ↔ Breaks accept (start + 1) s result := by
  have positions : {p | ∃ i d,(c :: s)[i]? = some d ∧ d ∈ accept ∧ p = start + i} =
      {p | ∃ i d,s[i]? = some d ∧ d ∈ accept ∧ p = start + 1 + i} := by
    ext p
    constructor
    · rintro ⟨i,d,found,accepted,rfl⟩
      cases i with
      | zero =>
        obtain rfl := Option.some.inj found
        exact absurd accepted absent
      | succ i => exact ⟨i,d,found,accepted,by omega⟩
    · rintro ⟨i,d,found,accepted,rfl⟩
      exact ⟨i + 1,d,found,accepted,by omega⟩
  have none : (∀ d ∈ c :: s,d ∉ accept) ↔ ∀ d ∈ s,d ∉ accept := by
    rw [List.forall_mem_cons,and_iff_right absent]
  have some_ : (∃ d ∈ c :: s,d ∈ accept) ↔ ∃ d ∈ s,d ∈ accept := by
    rw [List.exists_mem_cons_iff,or_iff_right absent]
  constructor
  · rintro ⟨zero,least⟩
    rw [positions,some_] at least
    exact ⟨zero.trans none,least⟩
  · rintro ⟨zero,least⟩
    refine ⟨zero.trans none.symm,?_⟩
    rw [positions,some_]
    exact least

theorem first_least (member : c ∈ accept) (start : Nat) :
    IsLeast {p | ∃ i d,(c :: s)[i]? = some d ∧ d ∈ accept ∧ p = start + i} start := by
  refine ⟨⟨0,c,rfl,member,rfl⟩,?_⟩
  rintro p ⟨i,d,_,_,rfl⟩
  exact Nat.le_add_right _ _

theorem broken_cases (accept s : List Byte) (start : Nat) :
    broken accept start s = 0 ∨ start ≤ broken accept start s := by
  induction s generalizing start with
  | nil => exact .inl rfl
  | cons c s ih =>
    unfold broken
    split_ifs with accepted
    · exact .inr (le_refl _)
    · have := ih (start + 1)
      omega

/-- The first accepted byte has no sign, and its position is not the value for none. -/
def FirstFound (accept : List Byte) : Nat → List Byte → Prop
  | _,[] => True
  | start,c :: s => if c ∈ accept then c.toNat < 128 ∧ start ≠ 0 else FirstFound accept (start + 1) s

theorem broken_iff : Breaks accept start s (broken accept start s) ↔ FirstFound accept start s := by
  induction s generalizing start with
  | nil => exact iff_of_true ⟨by simp [broken],by simp⟩ trivial
  | cons c s ih =>
    unfold broken FirstFound
    by_cases member : c ∈ accept
    · rw [if_pos member]
      have least := first_least (s := s) member start
      by_cases small : c.toNat < 128
      · rw [if_pos ⟨member,small⟩,and_iff_right small]
        constructor
        · intro right_ none
          exact right_.zero.mp none c List.mem_cons_self member
        · intro some_
          refine ⟨iff_of_false some_ fun none => none c List.mem_cons_self member,fun _ => least⟩
      · rw [if_neg (fun both => small both.2)]
        apply iff_of_false
        · intro right_
          have first := (right_.least ⟨c,List.mem_cons_self,member⟩).unique least
          rcases broken_cases accept s (start + 1) with none | later
          · exact right_.zero.mp none c List.mem_cons_self member
          · omega
        · exact fun both => small both.1
    · rw [if_neg member,if_neg (fun both => member both.1),breaks_cons member,ih]

inductive Scan
  | strspn
  | strpbrk

namespace Scan

def run (read : Nat → Nat → Option Byte) (rounds str : Nat) (accept : List Byte) (start : Nat) :
    Scan → Option Nat
  | strspn => Strings.strspn read rounds str accept start
  | strpbrk => Strings.strpbrk read rounds str accept start

def Result (accept : List Byte) (start : Nat) (s : List Byte) (result : Nat) : Scan → Prop
  | strspn => Spans accept s result
  | strpbrk => Breaks accept start s result

/-- The scan returns what it is for, and it depends on nothing behind the terminator. -/
def Exact (scan : Scan) (heap : Heap) (str : Nat) (accept : List Byte) (start : Nat) (s : List Byte) :
    Prop :=
  ∃ result,scan.Result accept start s result ∧ ∃ count,∀ rounds > count,
    scan.run (indexReadU8 heap) rounds str accept start = some result ∧
      ∀ read,Held read str start s → scan.run read rounds str accept start = some result

def Ascii (accept : List Byte) (start : Nat) (s : List Byte) : Scan → Prop
  | strspn => ∀ c ∈ s.takeWhile (· ∈ accept),c.toNat < 128
  | strpbrk => FirstFound accept start s

def result (accept : List Byte) (start : Nat) (s : List Byte) : Scan → Nat
  | strspn => (spanned accept s).length
  | strpbrk => broken accept start s

theorem run_ends (scan : Scan) (held : Held read str start s) (enough : s.length < rounds) :
    scan.run read rounds str accept start = some (scan.result accept start s) := by
  cases scan with
  | strspn =>
    have loop : strspnLoop read str accept rounds start 0 (s.headD 0) = _ := strspnLoop_ends held enough
    rw [Nat.zero_add] at loop
    simp only [run,Strings.strspn,held.head,Option.bind_eq_bind,Option.bind_some]
    exact loop
  | strpbrk =>
    simp only [run,Strings.strpbrk,held.head,Option.bind_eq_bind,Option.bind_some]
    exact strpbrkLoop_ends held enough

theorem result_iff (scan : Scan) :
    scan.Result accept start s (scan.result accept start s) ↔ scan.Ascii accept start s := by
  cases scan with
  | strspn => exact spanned_iff
  | strpbrk => exact broken_iff

theorem exact_iff (scan : Scan) {heap : Heap} (held : Held (indexReadU8 heap) str start s) :
    scan.Exact heap str accept start s ↔ scan.Ascii accept start s := by
  rw [← result_iff]
  constructor
  · rintro ⟨result,right_,count,returns⟩
    have one := (returns (count + s.length + 1) (by omega)).1
    rw [run_ends scan held (by omega)] at one
    rwa [Option.some.inj one]
  · intro right_
    exact ⟨_,right_,s.length,fun rounds enough =>
      ⟨run_ends scan held enough,fun read held => run_ends scan held enough⟩⟩

end Scan

def bytes : Heap where
  memory := [some (.owned (.sequence [97,0])),some (.owned (.sequence [200,0]))]
  views := by
    intro handle sequence first last found
    rcases handle with _ | _ | handle <;> simp at found

theorem bytes_held (str : Nat) (first : indexReadU8 bytes str 0 = some c) (nonzero : c ≠ 0)
    (last : indexReadU8 bytes str 1 = some 0) : Held (indexReadU8 bytes) str 0 [c] :=
  .byte first nonzero (.terminator last)

theorem bytes_exact : Scan.strspn.Exact bytes 0 [97] 0 [97] :=
  (Scan.exact_iff .strspn (bytes_held 0 rfl (by decide) rfl)).mpr (by unfold Scan.Ascii; decide)

/-- The byte 200 is accepted, and is not counted. -/
theorem bytes_not_exact : Held (indexReadU8 bytes) 1 0 [200] ∧
    ¬Scan.strspn.Exact bytes 1 [200] 0 [200] := by
  have held : Held (indexReadU8 bytes) 1 0 [200] := bytes_held 1 rfl (by decide) rfl
  refine ⟨held,?_⟩
  rintro ⟨result,right_,count,returns⟩
  have one := (returns (count + 2) (by omega)).1
  rw [Scan.run_ends .strspn held (by simp)] at one
  obtain rfl := Option.some.inj one
  have long : 1 ≤ 0 := right_.2 ⟨by decide,by decide⟩
  omega

end Strings
end Memoir
