import Memoir.NestingHashtable
import Memoir.Parking

/-! The loops of the nesting hash tables: when they end, and when all entries find a place in a larger
table. -/
namespace Memoir
namespace NestingHashtable
open Hashtable (PrimitiveEntry Table primitive find occupant)
open LinearProbing Parking

variable {κ ν : Type} {zeroKey : κ} {zero : ν} {hash : κ → BitVec 32} {rounds : Nat}

def existing (entries : List (PrimitiveEntry κ ν)) : List (PrimitiveEntry κ ν) :=
  entries.filter fun entry => entry.exists_

def taken (entries : List (PrimitiveEntry κ ν)) : Finset Nat :=
  (Finset.range entries.length).filter fun i => entries[i]?.map PrimitiveEntry.exists_ = some true

/-- Where the entries would be in a table of a capacity that is no multiple of `2^32`. -/
def homes (hash : κ → BitVec 32) (capacity : Nat) (entries : List (PrimitiveEntry κ ν)) : List Nat :=
  (existing entries).map fun entry => (hash entry.key).toNat % (capacity % 2 ^ 32)

section
variable {entries newEntries old moved : List (PrimitiveEntry κ ν)} {entry : PrimitiveEntry κ ν}
  {index i : Nat} {key : κ}

theorem mem_taken : i ∈ taken entries ↔ ∃ entry,entries[i]? = some entry ∧ entry.exists_ = true := by
  unfold taken
  rw [Finset.mem_filter,Finset.mem_range,Option.map_eq_some_iff]
  constructor
  · exact And.right
  · rintro ⟨entry,there,exists_⟩
    exact ⟨(List.getElem?_eq_some_iff.mp there).1,entry,there,exists_⟩

theorem not_mem_taken (there : entries[i]? = some entry) : i ∉ taken entries ↔ entry.exists_ = false := by
  rw [mem_taken,there]
  simp

theorem taken_replicate (capacity : Nat) (empty : entry.exists_ = false) :
    taken (List.replicate capacity entry) = ∅ := by
  apply Finset.eq_empty_of_forall_notMem
  intro i member
  obtain ⟨other,there,exists_⟩ := mem_taken.mp member
  obtain ⟨below,rfl⟩ := List.getElem?_eq_some_iff.mp there
  rw [List.getElem_replicate,empty] at exists_
  exact Bool.false_ne_true exists_

theorem taken_set (new : PrimitiveEntry κ ν) (there : entries[index]? = some entry)
    (exists_ : new.exists_ = true) :
    taken (entries.set index new) = insert index (taken entries) := by
  have below := (List.getElem?_eq_some_iff.mp there).1
  ext i
  rw [Finset.mem_insert,mem_taken,mem_taken]
  by_cases same : i = index
  · subst same
    rw [List.getElem?_set_self below]
    exact iff_of_true ⟨new,rfl,exists_⟩ (.inl rfl)
  · rw [List.getElem?_set_ne (Ne.symm same),or_iff_right same]

/-- An entry that was empty is filled. -/
theorem existing_set (new : PrimitiveEntry κ ν) (there : entries[index]? = some entry)
    (empty : entry.exists_ = false) (exists_ : new.exists_ = true) :
    (existing (entries.set index new)).Perm (new :: existing entries) := by
  obtain ⟨below,isEntry⟩ := List.getElem?_eq_some_iff.mp there
  have whole : entries = entries.take index ++ entry :: entries.drop (index + 1) := by
    rw [← isEntry,List.getElem_cons_drop,List.take_append_drop]
  have before : existing entries = existing (entries.take index) ++ existing (entries.drop (index + 1)) := by
    conv_lhs => rw [whole]
    unfold existing
    rw [List.filter_append,List.filter_cons_of_neg (by simp [empty])]
  rw [before,List.set_eq_take_append_cons_drop,if_pos below]
  unfold existing
  rw [List.filter_append,List.filter_cons_of_pos (by simp [exists_])]
  exact List.perm_middle

theorem walk_some {newI place : Nat} (found : walk entries rounds newI = some place) :
    ∃ entry,entries[place]? = some entry ∧ entry.exists_ = false := by
  induction rounds generalizing newI with
  | zero => exact nomatch found
  | succ rounds ih =>
    rw [walk] at found
    cases there : entries[newI]? with
    | none => simp [there] at found
    | some entry =>
      simp only [there] at found
      split_ifs at found with exists_
      · exact ih found
      · obtain rfl := Option.some.inj found
        exact ⟨entry,there,by simpa using exists_⟩

theorem walk_ends {newI place : Nat} (upTo : newI ≤ place) (there : entries[place]? = some entry)
    (empty : entry.exists_ = false) (passed : ∀ p,newI ≤ p → p < place → p ∈ taken entries)
    (enough : place < newI + rounds) : walk entries rounds newI = some place := by
  induction rounds generalizing newI with
  | zero => omega
  | succ rounds ih =>
    rw [walk]
    rcases Nat.lt_or_eq_of_le upTo with before | rfl
    · obtain ⟨other,isOther,exists_⟩ := mem_taken.mp (passed newI (le_refl _) before)
      rw [isOther]
      simp only [exists_,if_true]
      exact ih before (fun p from_ below => passed p (by omega) below) (by omega)
    · rw [there]
      simp [empty]

theorem walk_escapes {newI : Nat} (full : ∀ p,newI ≤ p → p < entries.length → p ∈ taken entries) :
    walk entries rounds newI = none := by
  induction rounds generalizing newI with
  | zero => rfl
  | succ rounds ih =>
    rw [walk]
    cases there : entries[newI]? with
    | none => rfl
    | some entry =>
      have below := (List.getElem?_eq_some_iff.mp there).1
      obtain ⟨other,isOther,exists_⟩ := mem_taken.mp (full newI (le_refl _) below)
      rw [there] at isOther
      obtain rfl := Option.some.inj isOther
      simp only [exists_,if_true]
      exact ih fun p from_ => full p (by omega)

/-- There is a first empty entry from an index on, or there is none. -/
theorem first_empty (entries : List (PrimitiveEntry κ ν)) (newI : Nat) :
    (∃ place entry,newI ≤ place ∧ entries[place]? = some entry ∧ entry.exists_ = false ∧
        ∀ p,newI ≤ p → p < place → p ∈ taken entries) ∨
      ∀ p,newI ≤ p → p < entries.length → p ∈ taken entries := by
  classical
  by_cases some_ : ∃ place,newI ≤ place ∧ place < entries.length ∧ place ∉ taken entries
  · left
    obtain ⟨from_,below,free⟩ := Nat.find_spec some_
    have there := List.getElem?_eq_getElem below
    refine ⟨Nat.find some_,_,from_,there,(not_mem_taken there).mp free,?_⟩
    intro p from' before
    by_contra free'
    exact Nat.find_min some_ before ⟨from',before.trans below,free'⟩
  · right
    intro p from_ below
    by_contra free
    exact some_ ⟨p,from_,below,free⟩

theorem home_eq {capacity : Nat} (divides : capacity % 2 ^ 32 ≠ 0) (key : κ) :
    home hash capacity key = some ((hash key).toNat % (capacity % 2 ^ 32)) :=
  if_neg divides

theorem home_lt (hash : κ → BitVec 32) {capacity : Nat} (divides : capacity % 2 ^ 32 ≠ 0) (key : κ) :
    (hash key).toNat % (capacity % 2 ^ 32) < capacity :=
  (Nat.mod_lt _ (Nat.pos_of_ne_zero divides)).trans_le (Nat.mod_le _ _)

/-- Every entry that is moved keeps its key and its value. -/
theorem move_existing (ran : move hash rounds newEntries old = some moved) :
    moved.length = newEntries.length ∧ (existing moved).Perm (existing newEntries ++ existing old) := by
  induction old generalizing newEntries with
  | nil =>
    obtain rfl := Option.some.inj ran
    refine ⟨rfl,?_⟩
    rw [existing,existing,List.filter_nil,List.append_nil]
  | cons entry rest ih =>
    rw [move] at ran
    split_ifs at ran with exists_
    · obtain ⟨newI,_,ran⟩ := Option.bind_eq_some_iff.mp ran
      obtain ⟨place,found,ran⟩ := Option.bind_eq_some_iff.mp ran
      obtain ⟨other,there,empty⟩ := walk_some found
      obtain ⟨length,same⟩ := ih ran
      have filled := existing_set ⟨true,entry.key,entry.value⟩ there empty rfl
      have entry_eq : (⟨true,entry.key,entry.value⟩ : PrimitiveEntry κ ν) = entry := by rw [← exists_]
      rw [entry_eq] at filled same length
      have head : existing (entry :: rest) = entry :: existing rest := List.filter_cons_of_pos exists_
      rw [List.length_set] at length
      rw [head]
      exact ⟨length,(same.trans (filled.append_right _)).trans List.perm_middle.symm⟩
    · have head : existing (entry :: rest) = existing rest := List.filter_cons_of_neg exists_
      rw [head]
      exact ih ran

/-- The entries find their places as cars do in a row. -/
theorem move_isSome {parked : List Nat} (divides : newEntries.length % 2 ^ 32 ≠ 0)
    (enough : newEntries.length ≤ rounds)
    (before : Parked newEntries.length (taken newEntries) parked) :
    (move hash rounds newEntries old).isSome = true ↔
      Room newEntries.length (parked ++ homes hash newEntries.length old) := by
  induction old generalizing newEntries parked with
  | nil =>
    apply iff_of_true rfl
    rw [homes,existing,List.filter_nil,List.map_nil,List.append_nil]
    exact before.room
  | cons entry rest ih =>
    rw [move]
    by_cases exists_ : entry.exists_ = true
    · have head : homes hash newEntries.length (entry :: rest) =
          (hash entry.key).toNat % (newEntries.length % 2 ^ 32) ::
            homes hash newEntries.length rest := by
        unfold homes existing
        rw [List.filter_cons_of_pos exists_,List.map_cons]
      have inside := home_lt hash divides entry.key
      have order (h : Nat) (xs : List Nat) : ((h :: parked) ++ xs).Perm (parked ++ h :: xs) :=
        List.perm_middle.symm
      rw [if_pos exists_,home_eq divides,Option.bind_eq_bind,Option.bind_some,head]
      generalize (hash entry.key).toNat % (newEntries.length % 2 ^ 32) = newI at *
      rcases first_empty newEntries newI with ⟨place,other,upTo,there,empty,passed⟩ | full
      · have below := (List.getElem?_eq_some_iff.mp there).1
        have after := before.park below ((not_mem_taken there).mpr empty) upTo passed
        rw [← taken_set ⟨true,entry.key,entry.value⟩ there rfl] at after
        rw [walk_ends upTo there empty passed (by omega),Option.bind_some]
        have length : (newEntries.set place ⟨true,entry.key,entry.value⟩).length = newEntries.length :=
          List.length_set
        have tail := ih (by rwa [length]) (by rwa [length]) (by rwa [length])
        rw [length] at tail
        rw [tail]
        exact ⟨Room.perm (order _ _),Room.perm (order _ _).symm⟩
      · rw [walk_escapes full]
        apply iff_of_false
        · exact Bool.false_ne_true
        · intro room
          exact before.not_room inside full (Room.of_append (room.perm (order _ _).symm))
    · have head : homes hash newEntries.length (entry :: rest) = homes hash newEntries.length rest := by
        unfold homes existing
        rw [List.filter_cons_of_neg exists_]
      rw [if_neg exists_,head]
      exact ih divides enough before

/-- The loops stop at an entry that is empty or has the key. -/
def Stop (key : κ) (entry : PrimitiveEntry κ ν) : Prop := entry.exists_ = false ∨ entry.key = key

theorem not_stop : ¬Stop key entry ↔ entry.exists_ = true ∧ ¬key = entry.key := by
  unfold Stop
  rw [not_or,Bool.not_eq_false,eq_comm (a := key)]

/-- The next index around the entries. -/
theorem next_index (below : index < entries.length) (d : Nat) :
    (if entries.length ≤ index + 1 then 0 else index + 1) < entries.length ∧
      position entries.length (if entries.length ≤ index + 1 then 0 else index + 1) d =
        position entries.length index (d + 1) := by
  have next : (if entries.length ≤ index + 1 then 0 else index + 1) = (index + 1) % entries.length := by
    split_ifs with wraps
    · rw [show index + 1 = entries.length by omega,Nat.mod_self]
    · rw [Nat.mod_eq_of_lt (by omega)]
  rw [next]
  refine ⟨Nat.mod_lt _ (by omega),?_⟩
  unfold position
  rw [Nat.mod_add_mod,Nat.add_assoc,Nat.add_comm 1]

theorem exists_distance (member : entry ∈ entries) (index : Nat) :
    ∃ d < entries.length,entries[position entries.length index d]? = some entry := by
  obtain ⟨slot,below,rfl⟩ := List.getElem_of_mem member
  obtain ⟨d,bound,same⟩ := exists_position index below
  exact ⟨d,bound,same ▸ List.getElem?_eq_getElem below⟩

variable [DecidableEq κ]

theorem getLoop_ends {d : Nat} (there : entries[position entries.length index d]? = some entry)
    (stop : Stop key entry) (below : index < entries.length) (enough : d < rounds) :
    ∃ place other,getLoop entries key rounds index = some place ∧ entries[place]? = some other ∧
      Stop key other := by
  induction d generalizing index rounds with
  | zero =>
    obtain ⟨rounds,rfl⟩ := Nat.exists_eq_succ_of_ne_zero (show rounds ≠ 0 by omega)
    rw [position_zero below] at there
    refine ⟨index,entry,?_,there,stop⟩
    rw [getLoop,there]
    rcases stop with empty | same
    · simp [empty]
    · simp [same]
  | succ d ih =>
    obtain ⟨rounds,rfl⟩ := Nat.exists_eq_succ_of_ne_zero (show rounds ≠ 0 by omega)
    have here := List.getElem?_eq_getElem below
    by_cases stop' : Stop key entries[index]
    · refine ⟨index,_,?_,here,stop'⟩
      rw [getLoop,here]
      rcases stop' with empty | same
      · simp [empty]
      · simp [same]
    · obtain ⟨exists_,apart⟩ := not_stop.mp stop'
      obtain ⟨below',next⟩ := next_index below d
      rw [getLoop,here]
      simp only [exists_,if_true,apart,if_false]
      exact ih (next ▸ there) below' (by omega)

theorem getLoop_goes_on (goes : ∀ entry ∈ entries,¬Stop key entry) :
    getLoop entries key rounds index = none := by
  induction rounds generalizing index with
  | zero => rfl
  | succ rounds ih =>
    rw [getLoop]
    cases there : entries[index]? with
    | none => rfl
    | some entry =>
      obtain ⟨exists_,apart⟩ := not_stop.mp (goes entry (List.mem_of_getElem? there))
      simp only [exists_,if_true,apart,if_false]
      exact ih

theorem find_ends {d start : Nat} (there : entries[position entries.length index d]? = some entry)
    (stop : Stop key entry) (below : index < entries.length) (enough : d < rounds) :
    (find (primitive zeroKey zero) entries key start rounds index).isSome = true := by
  induction d generalizing index rounds with
  | zero =>
    obtain ⟨rounds,rfl⟩ := Nat.exists_eq_succ_of_ne_zero (show rounds ≠ 0 by omega)
    rw [position_zero below] at there
    rw [find,there]
    rcases stop with empty | same
    · simp [primitive,empty]
    · simp only [primitive,same,if_true]
      split <;> rfl
  | succ d ih =>
    obtain ⟨rounds,rfl⟩ := Nat.exists_eq_succ_of_ne_zero (show rounds ≠ 0 by omega)
    have here := List.getElem?_eq_getElem below
    obtain ⟨below',next⟩ := next_index below d
    rw [find,here]
    dsimp only
    by_cases occupied : (primitive zeroKey zero).occupied entries[index] = true
    · rw [if_pos occupied]
      by_cases same : key = (primitive zeroKey zero).key entries[index]
      · rw [if_pos same]
        rfl
      · rw [if_neg same]
        by_cases begin_ : index + 1 = start
        · rw [if_pos begin_]
          rfl
        · rw [if_neg begin_]
          exact ih (next ▸ there) below' (by omega)
    · rw [if_neg occupied]
      rfl

/-- A search that began at the first entry does not see that it is there again. -/
theorem find_goes_on (goes : ∀ entry ∈ entries,¬Stop key entry) :
    find (primitive zeroKey zero) entries key 0 rounds index = none := by
  induction rounds generalizing index with
  | zero => rfl
  | succ rounds ih =>
    rw [find]
    cases there : entries[index]? with
    | none => rfl
    | some entry =>
      obtain ⟨exists_,apart⟩ := not_stop.mp (goes entry (List.mem_of_getElem? there))
      have occupied : (primitive zeroKey zero).occupied entry = true := exists_
      have apart' : ¬key = (primitive zeroKey zero).key entry := apart
      simp only [occupied,if_true,apart',if_false,Nat.succ_ne_zero]
      exact ih

end

end NestingHashtable
end Memoir
