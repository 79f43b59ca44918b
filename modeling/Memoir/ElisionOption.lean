import Mathlib.Data.Finset.Insert
import Mathlib.Data.List.Basic
import Mathlib.Data.Finset.Dedup
import Mathlib.Data.Finset.Lattice.Lemmas
import Mathlib.Algebra.Group.Int.Defs
import Mathlib.Algebra.Group.Nat.Defs

/-! The option of field elision that names a struct type and the fields to elide. The tokens that are cut
run past the next comma, where the integer parser stops. -/
namespace Memoir
namespace ElisionOption

def npos : Nat := 2 ^ 64 - 1

structure Text where
  chars : List Char
  short : chars.length < npos

def Text.size (text : Text) : Nat := text.chars.length

def Text.find (text : Text) (char : Char) (pos : Nat) : Nat :=
  match (text.chars.drop pos).findIdx? (· = char) with
  | some index => pos + index
  | none => npos

/-- A position past the end is an error. -/
def Text.substr (text : Text) (pos count : Nat) : Option (List Char) :=
  if pos ≤ text.size then some ((text.chars.drop pos).take count) else none

def isSpace (char : Char) : Bool := char = ' ' ∨ 9 ≤ char.toNat ∧ char.toNat ≤ 13

def unsignedDigits (negative : Bool) (chars : List Char) : Option Int :=
  let digits := chars.takeWhile Char.isDigit
  let value : Int := Nat.ofDigitChars 10 digits 0
  let value := if negative then -value else value
  if digits = [] then none
  else if -(2 ^ 31) ≤ value ∧ value < 2 ^ 31 then some value else none

/-- White space, a sign and digits; the rest is ignored. No digits, or a number that is no int, are
errors. -/
def stoi (chars : List Char) : Option Int :=
  match chars.dropWhile isSpace with
  | '-' :: rest => unsignedDigits true rest
  | '+' :: rest => unsignedDigits false rest
  | rest => unsignedDigits false rest

def toUnsigned (value : Int) : Nat := (value % 2 ^ 32).toNat

/-- The loop over the tokens. Positions wrap around. -/
def fieldIndices (elide : Text) : Nat → Nat → Finset Nat → Option (Finset Nat)
  | 0,_,_ => none
  | rounds + 1,next,indices =>
    if next < elide.size then do
      let token := (next + 1) % 2 ^ 64
      let next := elide.find ',' token
      let index ← (← elide.substr token next) |> stoi
      fieldIndices elide rounds next (insert (toUnsigned index) indices)
    else some indices

def parse (rounds : Nat) (elide : Text) : Option (List Char × Finset Nat) := do
  let next := elide.find ':' 0
  let name ← elide.substr 0 next
  let indices ← fieldIndices elide rounds next ∅
  return (name,indices)

def renderIndices (indices : List Nat) : List Char :=
  List.intercalate [','] (indices.map (Nat.toDigits 10))

def render (name : List Char) (indices : List Nat) : List Char :=
  name ++ ':' :: renderIndices indices

theorem find_eq {elide : Text} {front before after : List Char} {char : Char} {pos : Nat}
    (is : elide.chars = front ++ (before ++ char :: after)) (here : pos = front.length)
    (first : char ∉ before) : elide.find char pos = pos + before.length := by
  have index : (before ++ char :: after).findIdx? (· = char) = some before.length := by
    have none : before.findIdx? (· = char) = none := by
      apply List.findIdx?_eq_none_iff.mpr
      intro other mem
      apply decide_eq_false
      rintro rfl
      exact first mem
    rw [List.findIdx?_append,none,List.findIdx?_cons]
    simp
  rw [Text.find,is,here,List.drop_left,index]

theorem find_none {elide : Text} {front rest : List Char} {char : Char} {pos : Nat}
    (is : elide.chars = front ++ rest) (here : pos = front.length) (no : char ∉ rest) :
    elide.find char pos = npos := by
  have index : rest.findIdx? (· = char) = none := by
    apply List.findIdx?_eq_none_iff.mpr
    intro other mem
    apply decide_eq_false
    rintro rfl
    exact no mem
  rw [Text.find,is,here,List.drop_left,index]

/-- The parser reads the digits of a number and stops at what is no digit. -/
theorem stoi_toDigits {index : Nat} {more : List Char} (fits : index < 2 ^ 31)
    (stops : ∀ char rest,more = char :: rest → char.isDigit = false) :
    stoi (Nat.toDigits 10 index ++ more) = some (index : Int) := by
  obtain ⟨first,others,digits⟩ := List.exists_cons_of_ne_nil (Nat.toDigits_ne_nil : Nat.toDigits 10 index ≠ [])
  have isDigits : ∀ char ∈ Nat.toDigits 10 index,char.isDigit = true := fun char mem =>
    Nat.isDigit_of_mem_toDigits (by decide) (by decide) mem
  have isDigit : first.isDigit = true := isDigits first (digits ▸ List.mem_cons_self)
  have noSpace : isSpace first = false := by
    have atLeast : 48 ≤ first.toNat := by
      have bounds := isDigit
      simp only [Char.isDigit,ge_iff_le,Bool.and_eq_true,decide_eq_true_eq] at bounds
      exact bounds.1
    apply decide_eq_false
    rintro (rfl | ⟨_,below⟩)
    · exact absurd isDigit (by decide)
    · omega
  have front : (Nat.toDigits 10 index ++ more).dropWhile isSpace = Nat.toDigits 10 index ++ more := by
    rw [digits,List.cons_append,List.dropWhile_cons_of_neg (by simp [noSpace])]
  have taken : (Nat.toDigits 10 index ++ more).takeWhile Char.isDigit = Nat.toDigits 10 index := by
    have nothing : more.takeWhile Char.isDigit = [] := by
      cases more with
      | nil => rfl
      | cons char rest => exact List.takeWhile_cons_of_neg (by simp [stops char rest rfl])
    rw [List.takeWhile_append_of_pos isDigits,nothing,List.append_nil]
  have number : unsignedDigits false (Nat.toDigits 10 index ++ more) = some (index : Int) := by
    rw [unsignedDigits,taken]
    simp only [Nat.ofDigitChars_ten_toDigits,Nat.toDigits_ne_nil,if_false,Bool.false_eq_true]
    rw [if_pos (by omega)]
  have noSign : first ≠ '-' ∧ first ≠ '+' := by
    constructor <;> rintro rfl <;> exact absurd isDigit (by decide)
  rw [stoi,front,← number,digits,List.cons_append]
  split
  · rename_i same
    exact absurd (List.cons.inj same).1 noSign.1
  · rename_i same
    exact absurd (List.cons.inj same).1 noSign.2
  · rfl

theorem toUnsigned_natCast {index : Nat} (fits : index < 2 ^ 31) : toUnsigned index = index := by
  rw [toUnsigned]
  omega

theorem comma_notMem (index : Nat) : ',' ∉ Nat.toDigits 10 index := by
  intro mem
  exact absurd (Nat.isDigit_of_mem_toDigits (by decide) (by decide) mem) (by decide)

/-- A token that is cut too long: the digits of its number, then nothing or a comma. -/
theorem index_at {elide : Text} {front more : List Char} {index pos count : Nat}
    (is : elide.chars = front ++ (Nat.toDigits 10 index ++ more)) (here : pos = front.length)
    (fits : index < 2 ^ 31) (stops : more = [] ∨ ∃ rest,more = ',' :: rest)
    (long : (Nat.toDigits 10 index).length ≤ count) :
    (elide.substr pos count).bind stoi = some (index : Int) := by
  have inside : pos ≤ elide.size := by
    rw [Text.size,is,List.length_append]
    omega
  rw [Text.substr,if_pos inside,Option.bind_some,is,here,List.drop_left,
    List.take_append,List.take_of_length_le long]
  apply stoi_toDigits fits
  intro char rest same
  rcases stops with rfl | ⟨_,rfl⟩
  · simp at same
  · cases taken : count - (Nat.toDigits 10 index).length with
    | zero => simp [taken] at same
    | succ n =>
      rw [taken,List.take_succ_cons] at same
      rw [← (List.cons.inj same).1]
      rfl

theorem fieldIndices_step {elide : Text} {next after : Nat} {index : Int} {found : Finset Nat}
    (inside : next < elide.size) (ends : elide.find ',' (next + 1) = after)
    (is : (elide.substr (next + 1) after).bind stoi = some index) (rounds : Nat) :
    fieldIndices elide (rounds + 1) next found =
      fieldIndices elide rounds after (insert (toUnsigned index) found) := by
  have short : elide.size < 2 ^ 64 - 1 := elide.short
  have token : (next + 1) % 2 ^ 64 = next + 1 := Nat.mod_eq_of_lt (by omega)
  obtain ⟨chars,cut,number⟩ := Option.bind_eq_some_iff.mp is
  rw [fieldIndices,if_pos inside,token]
  simp only [ends,cut,number,Option.bind_eq_bind,Option.bind_some]

theorem first_token {elide : Text} {front rest : List Char} {separator : Char} {index : Nat}
    {others : List Nat} (is : elide.chars = front ++ separator :: rest)
    (fit : ∀ other ∈ index :: others,other < 2 ^ 31) :
    index < 2 ^ 31 ∧ front.length + 1 = (front ++ [separator]).length ∧ front.length < elide.size := by
  refine ⟨fit index List.mem_cons_self,by simp,?_⟩
  rw [Text.size,is,List.length_append,List.length_cons]
  omega

/-- From the separator before the tokens on. -/
theorem fieldIndices_render {elide : Text} {front : List Char} {separator : Char} {index : Nat}
    {rest : List Nat} (is : elide.chars = front ++ separator :: renderIndices (index :: rest))
    (fit : ∀ other ∈ index :: rest,other < 2 ^ 31) (found : Finset Nat) (rounds : Nat)
    (enough : rest.length + 1 < rounds) :
    fieldIndices elide rounds front.length found = some (found ∪ (index :: rest).toFinset) := by
  induction rest generalizing index front separator found rounds with
  | nil =>
    obtain ⟨rounds,rfl⟩ : ∃ fewer,rounds = fewer + 1 + 1 := ⟨rounds - 2,by simp at enough; omega⟩
    obtain ⟨fits,here,inside⟩ := first_token is fit
    have tokens : elide.chars = (front ++ [separator]) ++ (Nat.toDigits 10 index ++ []) := by
      rw [is,renderIndices,List.map_singleton,List.intercalate_singleton]
      simp
    have ends : elide.find ',' (front.length + 1) = npos :=
      find_none tokens here (by simpa using comma_notMem index)
    have long : (Nat.toDigits 10 index).length ≤ npos := by
      have short := elide.short
      rw [tokens] at short
      simp only [List.length_append] at short
      omega
    have outside : ¬ npos < elide.size := Nat.not_lt.mpr (Nat.le_of_lt elide.short)
    rw [fieldIndices_step inside ends (index_at tokens here fits (Or.inl rfl) long),
      toUnsigned_natCast fits,fieldIndices,if_neg outside,Finset.insert_eq,Finset.union_comm]
    rfl
  | cons second rest ih =>
    obtain ⟨rounds,rfl⟩ : ∃ fewer,rounds = fewer + 1 := ⟨rounds - 1,by omega⟩
    obtain ⟨fits,here,inside⟩ := first_token is fit
    have tokens : elide.chars = (front ++ [separator]) ++
        (Nat.toDigits 10 index ++ ',' :: renderIndices (second :: rest)) := by
      rw [is,renderIndices,List.map_cons,List.map_cons,List.intercalate_cons_cons]
      simp [renderIndices]
    have next : elide.chars = (front ++ separator :: Nat.toDigits 10 index) ++
        ',' :: renderIndices (second :: rest) := by
      rw [tokens]
      simp
    have position : front.length + 1 + (Nat.toDigits 10 index).length =
        (front ++ separator :: Nat.toDigits 10 index).length := by
      rw [List.length_append,List.length_cons]
      omega
    have ends : elide.find ',' (front.length + 1) =
        (front ++ separator :: Nat.toDigits 10 index).length := by
      rw [find_eq tokens here (comma_notMem index),position]
    have long : (Nat.toDigits 10 index).length ≤
        (front ++ separator :: Nat.toDigits 10 index).length := by omega
    rw [fieldIndices_step inside ends (index_at tokens here fits (Or.inr ⟨_,rfl⟩) long),
      toUnsigned_natCast fits,ih next (fun other mem => fit other (List.mem_cons_of_mem _ mem)) _ _
        (Nat.lt_of_succ_lt_succ enough),Finset.insert_union,← Finset.union_insert,
      ← List.toFinset_cons]

/-- The option is read as it is documented: the name, and the indices that are listed. -/
theorem parse_render (elide : Text) (name : List Char) (indices : List Nat)
    (is : elide.chars = render name indices) (colon : ':' ∉ name) (nonempty : indices ≠ [])
    (fit : ∀ index ∈ indices,index < 2 ^ 31) (rounds : Nat) (enough : indices.length < rounds) :
    parse rounds elide = some (name,indices.toFinset) := by
  obtain ⟨index,rest,rfl⟩ := List.exists_cons_of_ne_nil nonempty
  have whole : elide.chars = [] ++ (name ++ ':' :: renderIndices (index :: rest)) := is
  have ends : elide.find ':' 0 = name.length := by
    rw [find_eq whole List.length_nil.symm colon,Nat.zero_add]
  have named : elide.substr 0 name.length = some name := by
    rw [Text.substr,if_pos (Nat.zero_le _),is,render,List.drop_zero,List.take_left]
  rw [parse]
  simp only [ends,named,Option.bind_eq_bind,Option.bind_some,
    fieldIndices_render is fit ∅ rounds enough,Finset.empty_union,Option.pure_def]

/-- Three indices of several digits. -/
theorem parse_render_node : parse 4 ⟨['N',':','1','0',',','3',',','1','0'],by decide⟩ =
    some (['N'],[10,3,10].toFinset) :=
  parse_render _ ['N'] [10,3,10] rfl (by decide) (by decide) (by decide) 4 (by decide)

end ElisionOption
end Memoir
