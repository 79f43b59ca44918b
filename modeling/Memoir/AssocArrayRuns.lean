import Memoir.AssocArray

/-! When the runs of an associative array refine those of the finite map: an operation keeps the
entries those of the map, and a run does. -/
namespace Memoir
namespace Runtime
namespace AssocArray

variable {key value : Ty} {heap : Heap} {array : Nat} {entries : List (Word × Word)}
  {map : Finmap fun _ : Key key => Word}

def IsArray (key value : Ty) (heap : Heap) (array : Nat) (entries : List (Word × Word)) : Prop :=
  heap.get array = some (.owned (.assocArray key value entries))

theorem IsArray.write (is : IsArray key value heap array entries)
    (entries' : List (Word × Word)) :
    IsArray key value (heap.write array (.assocArray key value entries')) array entries' :=
  Heap.get_write (Heap.get_lt is)

theorem IsArray.allocate (key value : Ty) (heap : Heap) (entries : List (Word × Word)) :
    IsArray key value (heap.allocate (.assocArray key value entries)).1
      (heap.allocate (.assocArray key value entries)).2 entries := by
  simp [IsArray,Heap.allocate,Heap.add,Heap.get]

theorem IsArray.extends {after : Heap} (is : IsArray key value heap array entries)
    (more : Extends heap after) : IsArray key value after array entries := by
  unfold IsArray
  rw [more.get (Heap.get_lt is)]
  exact is

section
variable (is : IsArray key value heap array entries)
include is

theorem hasElement_eq (k : Key key) :
    heap.assocHas array k.passed =
      (readKey key k.passed).map fun word => (entries.lookup word).isSome := by
  unfold IsArray at is
  cases read : readKey key k.passed <;> simp [Heap.assocHas,Heap.hasElement,is,read]

theorem getElement_present (fits : key.Fits) {k : Key key} {found : Word}
    (present : entries.lookup k.stored = some found) :
    heap.getElement array [k.passed] = some (heap,found) := by
  unfold IsArray at is
  simp [Heap.getElement,Heap.element,is,readKey_passed fits,present]

theorem getElement_absent (fits : key.Fits) {k : Key key}
    (absent : entries.lookup k.stored = none) :
    heap.getElement array [k.passed] = (initElement value heap).map fun made =>
      (made.1.write array (.assocArray key value (assign entries k.stored made.2)),made.2) := by
  unfold IsArray at is
  cases made : initElement value heap <;>
    simp [Heap.getElement,Heap.element,is,readKey_passed fits,absent,made]

end

theorem initElement_scalar (scalar : value.isScalar = true) :
    initElement value heap = some (heap,0) := by
  cases value with
  | integerTy | floatTy | doubleTy | pointerTy | referenceTy => rfl
  | _ => simp [Ty.isScalar] at scalar

/-- What an operation that only observes shows of a map that the entries are of. -/
theorem run_observes (fits : key.Fits) (is : IsArray key value heap array entries)
    (lists : Lists entries map) {operation : Operation key} (observes : operation.observes = true)
    (defined : operation.Defined map.keys) :
    ∃ heap' shown, operation.run heap array = some (heap',array,shown) ∧
      operation.Meaning value map shown map ∧ IsArray key value heap' array entries := by
  cases operation with
  | read k =>
    obtain ⟨found,present⟩ := Finmap.mem_iff.mp (Finmap.mem_keys.mp defined)
    have element := getElement_present is fits ((lists.lookup k).trans present)
    exact ⟨heap,.word found,by simp [Operation.run,Heap.assocRead,element],
      ⟨rfl,found,present,rfl⟩,is⟩
  | has k =>
    refine ⟨heap,.flag (decide (k ∈ map)),?_,⟨rfl,rfl⟩,is⟩
    have same : (entries.lookup k.stored).isSome = decide (k ∈ map) := by
      rw [lists.lookup,Bool.eq_iff_iff,decide_eq_true_iff]
      exact Finmap.lookup_isSome
    rw [Operation.run,hasElement_eq is,readKey_passed fits]
    simp only [Option.map_some,same]
  | keys =>
    refine ⟨(heap.allocate (.sequence (entries.map Prod.fst))).1,.words (entries.map Prod.fst),?_,
      ⟨rfl,_,rfl,lists.truncated fits⟩,is.extends (.allocate heap _)⟩
    have made : heap.assocKeys array = some (heap.allocate (.sequence (entries.map Prod.fst))) := by
      unfold IsArray at is
      simp only [Heap.assocKeys,is]
    rw [Operation.run,made]
    simp [Heap.vector,Heap.allocate,Heap.add,Heap.get]
  | size =>
    refine ⟨heap,.number map.keys.card,?_,⟨rfl,rfl⟩,is⟩
    unfold IsArray at is
    simp [Operation.run,Heap.size,is,lists.length_eq fits]
  | _ => simp [Operation.observes] at observes

/-- `get_element` leaves a key in the array. -/
theorem getElement_kept (fits : key.Fits) (is : IsArray key value heap array entries)
    (lists : Lists entries map) (k : Key key) (kept : value.makeable = true ∨ k ∈ map) :
    ∃ heap' found map' entries', heap.getElement array [k.passed] = some (heap',found) ∧
      (if k ∈ map then map' = map
        else ∃ initial, (value.isScalar = true → initial = 0) ∧ map' = map.insert k initial) ∧
      IsArray key value heap' array entries' ∧ Lists entries' map' := by
  by_cases present : k ∈ map
  · obtain ⟨found,is'⟩ := Finmap.mem_iff.mp present
    refine ⟨heap,found,map,entries,getElement_present is fits ((lists.lookup k).trans is'),?_,is,
      lists⟩
    rw [if_pos present]
  · have absent := Finmap.lookup_eq_none.mpr present
    rcases kept with makeable | present'
    · rw [← initElement_isSome value heap] at makeable
      obtain ⟨⟨after,initial⟩,made⟩ := Option.isSome_iff_exists.mp makeable
      have there := is.extends (initElement_extends value made)
      refine ⟨_,initial,map.insert k initial,_,?_,?_,there.write _,lists.assign fits k initial⟩
      · rw [getElement_absent is fits ((lists.lookup k).trans absent),made]
        rfl
      · rw [if_neg present]
        refine ⟨initial,fun scalar => ?_,rfl⟩
        rw [initElement_scalar scalar] at made
        exact (Prod.mk.inj (Option.some.inj made)).2.symm
    · exact absurd present' present

/-- The early return of the integer case is the only one that erases. -/
theorem removeElement_eq (fits : key.Fits) (entries : List (Word × Word)) (k : Key key) :
    Heap.removeElement key entries k.passed =
      some (if key.isInteger = true then eraseEntry entries k.stored else entries) := by
  have read := readKey_passed fits k
  cases key with
  | integerTy => simp [Heap.removeElement,read,Ty.isInteger]
  | _ => simp [Heap.removeElement,read,Ty.isInteger]

theorem removeElement_kept (fits : key.Fits) (lists : Lists entries map) (k : Key key)
    (kept : key.isInteger = true ∨ k ∉ map) :
    ∃ entries', Heap.removeElement key entries k.passed = some entries' ∧
      Lists entries' (map.erase k) := by
  refine ⟨_,removeElement_eq fits entries k,?_⟩
  split_ifs with isInteger
  · exact lists.erase fits k
  · exact lists.erase_absent (kept.resolve_left isInteger)

/-- One operation that keeps the entries those of the map. -/
theorem run_kept (fits : key.Fits) (is : IsArray key value heap array entries)
    (lists : Lists entries map) (operation : Operation key)
    (defined : operation.Defined map.keys) (kept : operation.Kept value map.keys) :
    ∃ heap' array' shown map' entries', operation.run heap array = some (heap',array',shown) ∧
      operation.Meaning value map shown map' ∧ IsArray key value heap' array' entries' ∧
      Lists entries' map' := by
  cases operation with
  | write k word =>
    refine ⟨_,array,.nothing,map.insert k word,_,?_,⟨rfl,rfl⟩,is.write _,
      lists.assign fits k word⟩
    unfold IsArray at is
    simp [Operation.run,Heap.assocWrite,Heap.setElement,is,readKey_passed fits]
  | insert k =>
    have new := IsArray.allocate key value heap entries
    obtain ⟨after,found,map',entries',element,meaning,is',lists'⟩ :=
      getElement_kept fits new lists k (by simpa [Operation.Kept,Finmap.mem_keys] using kept)
    refine ⟨after,_,.nothing,map',entries',?_,⟨rfl,meaning⟩,is',lists'⟩
    unfold IsArray at is
    simp [Operation.run,Heap.assocInsert,is,element]
  | mutInsert k =>
    obtain ⟨after,found,map',entries',element,meaning,is',lists'⟩ :=
      getElement_kept fits is lists k (by simpa [Operation.Kept,Finmap.mem_keys] using kept)
    refine ⟨after,array,.nothing,map',entries',?_,⟨rfl,meaning⟩,is',lists'⟩
    simp [Operation.run,Heap.mutAssocInsert,element]
  | remove k =>
    obtain ⟨entries',removed,lists'⟩ :=
      removeElement_kept fits lists k (by simpa [Operation.Kept,Finmap.mem_keys] using kept)
    refine ⟨_,_,.nothing,map.erase k,entries',?_,⟨rfl,rfl⟩,.allocate key value heap entries',lists'⟩
    unfold IsArray at is
    simp [Operation.run,Heap.assocRemove,is,removed]
  | mutRemove k =>
    obtain ⟨entries',removed,lists'⟩ :=
      removeElement_kept fits lists k (by simpa [Operation.Kept,Finmap.mem_keys] using kept)
    refine ⟨_,array,.nothing,map.erase k,entries',?_,⟨rfl,rfl⟩,is.write entries',lists'⟩
    unfold IsArray at is
    simp [Operation.run,Heap.mutAssocRemove,is,removed]
  | read _ | has _ | keys | size =>
    obtain ⟨after,shown,ran,meaning,is'⟩ := run_observes fits is lists rfl defined
    exact ⟨after,array,shown,map,entries,ran,meaning,is',lists⟩

/-- The keys of the map change as the operation says. -/
theorem Meaning.keys {operation : Operation key} {shown : Observation}
    {map' : Finmap fun _ : Key key => Word} (meaning : operation.Meaning value map shown map') :
    map'.keys = operation.after map.keys := by
  have inserted (k : Key key) (word : Word) : (map.insert k word).keys = Insert.insert k map.keys := by
    ext k'
    rw [Finmap.mem_keys,Finmap.mem_insert,Finset.mem_insert,Finmap.mem_keys]
  have put (k : Key key) (next : if k ∈ map then map' = map
      else ∃ initial, (value.isScalar = true → initial = 0) ∧ map' = map.insert k initial) :
      map'.keys = Insert.insert k map.keys := by
    split_ifs at next with present
    · rw [next,Finset.insert_eq_of_mem (Finmap.mem_keys.mpr present)]
    · obtain ⟨initial,_,rfl⟩ := next
      exact inserted k initial
  cases operation with
  | write k word =>
    obtain ⟨_,rfl⟩ := meaning
    exact inserted k word
  | insert k | mutInsert k => exact put k meaning.2
  | remove k | mutRemove k =>
    obtain ⟨_,rfl⟩ := meaning
    exact Finmap.keys_erase k map
  | read _ | has _ | keys | size =>
    obtain ⟨rfl,_⟩ := meaning
    rfl

theorem shows_of_lists (fits : key.Fits) (is : IsArray key value heap array entries)
    (lists : Lists entries map) : Shows value heap array map := by
  intro operation observes defined
  obtain ⟨after,shown,ran,meaning,_⟩ := run_observes fits is lists observes defined
  exact ⟨after,shown,ran,meaning⟩

theorem refines_of_kept (fits : key.Fits) (operations : List (Operation key))
    (is : IsArray key value heap array entries) (lists : Lists entries map)
    (defined : Along Operation.Defined map.keys operations)
    (kept : Along (Operation.Kept value) map.keys operations) :
    Refines value heap array map operations := by
  induction operations generalizing heap array entries map with
  | nil => exact shows_of_lists fits is lists
  | cons operation operations ih =>
    obtain ⟨heap',array',shown,map',entries',ran,meaning,is',lists'⟩ :=
      run_kept fits is lists operation defined.1 kept.1
    refine ⟨shows_of_lists fits is lists,heap',array',shown,map',ran,meaning,?_⟩
    have keys := Meaning.keys meaning
    apply ih is' lists'
    · rw [keys]
      exact defined.2
    · rw [keys]
      exact kept.2

theorem Refines.shows {operations : List (Operation key)}
    (refines : Refines value heap array map operations) : Shows value heap array map := by
  cases operations with
  | nil => exact refines
  | cons => exact refines.1

/-- What `has` shows is whether the key has an entry. -/
theorem has_of_shows (is : IsArray key value heap array entries) (shows_ : Shows value heap array map)
    (k : Key key) :
    (readKey key k.passed).map (fun word => (entries.lookup word).isSome) =
      some (decide (k ∈ map)) := by
  obtain ⟨after,shown,ran,_,rfl⟩ := shows_ (.has k) rfl trivial
  rw [Operation.run,hasElement_eq is] at ran
  obtain ⟨found,isFound,same⟩ := Option.map_eq_some_iff.mp ran
  rw [isFound,Observation.flag.inj (Prod.mk.inj (Prod.mk.inj same).2).2]

theorem fits_of_shows (is : IsArray key value heap array entries)
    (shows_ : Shows value heap array map) : key.Fits := by
  cases key with
  | integerTy bitwidth isSigned =>
    simp only [Ty.Fits]
    by_contra wide
    have zero : (Ty.integerTy bitwidth isSigned).Holds 0 := by
      have some : (0 : Int) < 2 ^ bitwidth := pow_pos (by decide) _
      have some' : (0 : Int) < 2 ^ (bitwidth - 1) := pow_pos (by decide) _
      cases isSigned with
      | true => exact ⟨by omega,by omega,some'⟩
      | false => exact ⟨le_refl _,some⟩
    have has := has_of_shows is shows_ ⟨0,zero⟩
    rw [readKey,if_neg (by omega),if_neg (by omega),if_neg wide] at has
    simp at has
  | _ => trivial

section
variable (fits : key.Fits) (is : IsArray key value heap array entries)
include fits is

theorem lookup_of_shows (shows_ : Shows value heap array map) (k : Key key) :
    (entries.lookup k.stored).isSome = decide (k ∈ map) := by
  have has := has_of_shows is shows_ k
  rw [readKey_passed fits] at has
  exact Option.some.inj has

theorem getElement_isArray {k : Key key} {after : Heap} {found : Word}
    (ran : heap.getElement array [k.passed] = some (after,found)) :
    ∃ entries', IsArray key value after array entries' := by
  cases present : entries.lookup k.stored with
  | some found' =>
    rw [getElement_present is fits present] at ran
    obtain ⟨rfl,_⟩ := Prod.mk.inj (Option.some.inj ran)
    exact ⟨entries,is⟩
  | none =>
    rw [getElement_absent is fits present] at ran
    obtain ⟨⟨middle,initial⟩,made,same⟩ := Option.map_eq_some_iff.mp ran
    obtain ⟨rfl,_⟩ := Prod.mk.inj same
    exact ⟨_,(is.extends (initElement_extends value made)).write _⟩

/-- An element that is made for a new key can be made. -/
theorem makeable_of_getElement {k : Key key} {result : Heap × Word}
    (absent : entries.lookup k.stored = none)
    (ran : heap.getElement array [k.passed] = some result) : value.makeable = true := by
  rw [getElement_absent is fits absent] at ran
  obtain ⟨made,isMade,_⟩ := Option.map_eq_some_iff.mp ran
  rw [← initElement_isSome value heap,isMade,Option.isSome_some]

/-- Whatever an operation does, the run goes on with an array. -/
theorem run_isArray {operation : Operation key} {after : Heap} {array' : Nat} {shown : Observation}
    (ran : operation.run heap array = some (after,array',shown)) :
    ∃ entries', IsArray key value after array' entries' := by
  have is' := is
  unfold IsArray at is'
  cases operation with
  | write k word =>
    have wrote : heap.assocWrite word array [k.passed] =
        some (heap.write array (.assocArray key value (assign entries k.stored word)),array) := by
      simp [Heap.assocWrite,Heap.setElement,is',readKey_passed fits]
    rw [Operation.run,wrote] at ran
    obtain ⟨rfl,rfl,_⟩ := Prod.mk.inj (Option.some.inj ran) |>.imp_right Prod.mk.inj
    exact ⟨_,is.write _⟩
  | insert k =>
    simp only [Operation.run,Heap.assocInsert,is',Option.bind_eq_bind,Option.map_eq_some_iff,
      Option.bind_eq_some_iff,Option.pure_def,Option.some.injEq,Prod.mk.injEq] at ran
    obtain ⟨_,⟨⟨middle,found⟩,element,rfl⟩,rfl,rfl,_⟩ := ran
    exact getElement_isArray fits (.allocate key value heap entries) element
  | mutInsert k =>
    simp only [Operation.run,Heap.mutAssocInsert,Option.map_eq_some_iff,Prod.mk.injEq] at ran
    obtain ⟨_,⟨⟨middle,found⟩,element,rfl⟩,rfl,rfl,_⟩ := ran
    exact getElement_isArray fits is element
  | remove k =>
    simp only [Operation.run,Heap.assocRemove,is',removeElement_eq fits,Option.bind_eq_bind,
      Option.bind_some,Option.pure_def,Option.map_some,Option.some.injEq,Prod.mk.injEq] at ran
    obtain ⟨rfl,rfl,_⟩ := ran
    exact ⟨_,.allocate key value heap _⟩
  | mutRemove k =>
    simp only [Operation.run,Heap.mutAssocRemove,is',removeElement_eq fits,Option.bind_eq_bind,
      Option.bind_some,Option.pure_def,Option.map_some,Option.some.injEq,Prod.mk.injEq] at ran
    obtain ⟨rfl,rfl,_⟩ := ran
    exact ⟨_,is.write _⟩
  | read k =>
    simp only [Operation.run,Heap.assocRead,Option.map_eq_some_iff,Prod.mk.injEq] at ran
    obtain ⟨⟨middle,found⟩,element,rfl,rfl,_⟩ := ran
    exact getElement_isArray fits is element
  | has k =>
    simp only [Operation.run,Option.map_eq_some_iff,Prod.mk.injEq] at ran
    obtain ⟨_,_,rfl,rfl,_⟩ := ran
    exact ⟨entries,is⟩
  | keys =>
    simp only [Operation.run,Heap.assocKeys,is',Option.bind_eq_bind,Option.bind_some,
      Option.bind_eq_some_iff,Option.pure_def,Option.some.injEq,Prod.mk.injEq] at ran
    obtain ⟨_,_,rfl,rfl,_⟩ := ran
    exact ⟨entries,is.extends (.allocate heap _)⟩
  | size =>
    simp only [Operation.run,Option.map_eq_some_iff,Prod.mk.injEq] at ran
    obtain ⟨_,_,rfl,rfl,_⟩ := ran
    exact ⟨entries,is⟩

/-- An operation after which the array still shows its map has kept to the condition. -/
theorem kept_of_shows {operation : Operation key} {after : Heap} {array' : Nat}
    {shown : Observation} {map' : Finmap fun _ : Key key => Word}
    (shows_ : Shows value heap array map)
    (ran : operation.run heap array = some (after,array',shown))
    (meaning : operation.Meaning value map shown map')
    (shows' : Shows value after array' map') : operation.Kept value map.keys := by
  have is' := is
  unfold IsArray at is'
  have absent (k : Key key) (notIn : k ∉ map.keys) : entries.lookup k.stored = none := by
    have lookup := lookup_of_shows fits is shows_ k
    rw [decide_eq_false (fun member => notIn (Finmap.mem_keys.mpr member))] at lookup
    simpa using lookup
  -- A key of another kind has its entry after the remove as before.
  have stays (k : Key key) (isOther : key.isInteger ≠ true) (member : k ∈ map.keys)
      (there : IsArray key value after array'
        (if key.isInteger = true then eraseEntry entries k.stored else entries))
      (erased : map' = map.erase k) : False := by
    rw [if_neg isOther] at there
    have before := lookup_of_shows fits is shows_ k
    have later := lookup_of_shows fits there shows' k
    rw [decide_eq_true (Finmap.mem_keys.mp member)] at before
    rw [before,erased,decide_eq_false Finmap.notMem_erase_self] at later
    exact Bool.noConfusion later
  cases operation with
  | insert k =>
    simp only [Operation.run,Heap.assocInsert,is',Option.bind_eq_bind,Option.map_eq_some_iff,
      Option.bind_eq_some_iff,Option.pure_def,Option.some.injEq,Prod.mk.injEq] at ran
    obtain ⟨_,⟨result,element,_⟩,_⟩ := ran
    rw [Operation.Kept]
    by_contra bad
    obtain ⟨notMade,notIn⟩ := not_or.mp bad
    exact notMade (makeable_of_getElement fits (.allocate key value heap entries) (absent k notIn)
      element)
  | mutInsert k =>
    simp only [Operation.run,Heap.mutAssocInsert,Option.map_eq_some_iff] at ran
    obtain ⟨_,⟨result,element,_⟩,_⟩ := ran
    rw [Operation.Kept]
    by_contra bad
    obtain ⟨notMade,notIn⟩ := not_or.mp bad
    exact notMade (makeable_of_getElement fits is (absent k notIn) element)
  | remove k =>
    simp only [Operation.run,Heap.assocRemove,is',removeElement_eq fits,Option.bind_eq_bind,
      Option.bind_some,Option.pure_def,Option.map_some,Option.some.injEq,Prod.mk.injEq] at ran
    obtain ⟨rfl,rfl,_⟩ := ran
    rw [Operation.Kept]
    by_contra bad
    obtain ⟨isOther,member⟩ := not_or.mp bad
    exact stays k isOther (not_not.mp member) (.allocate key value heap _) meaning.2
  | mutRemove k =>
    simp only [Operation.run,Heap.mutAssocRemove,is',removeElement_eq fits,Option.bind_eq_bind,
      Option.bind_some,Option.pure_def,Option.map_some,Option.some.injEq,Prod.mk.injEq] at ran
    obtain ⟨rfl,rfl,_⟩ := ran
    rw [Operation.Kept]
    by_contra bad
    obtain ⟨isOther,member⟩ := not_or.mp bad
    exact stays k isOther (not_not.mp member) (is.write _) meaning.2
  | write _ _ | read _ | has _ | keys | size => exact trivial

end

theorem kept_of_refines (fits : key.Fits) (operations : List (Operation key))
    (is : IsArray key value heap array entries)
    (refines : Refines value heap array map operations) :
    Along (Operation.Kept value) map.keys operations := by
  induction operations generalizing heap array entries map with
  | nil => exact trivial
  | cons operation operations ih =>
    obtain ⟨shows_,heap',array',shown,map',ran,meaning,rest⟩ := refines
    obtain ⟨entries',is'⟩ := run_isArray fits is ran
    refine ⟨kept_of_shows fits is shows_ ran meaning rest.shows,?_⟩
    rw [← Meaning.keys meaning]
    exact ih is' rest

/-- A new array refines the finite map, whatever is done to it, exactly when keys fit their word
and every remove and insert of the sequence keeps to its condition. -/
theorem refines_iff (key value : Ty) (heap : Heap) (operations : List (Operation key))
    (defined : Along Operation.Defined ∅ operations) :
    (∃ after array, heap.allocateAssocArray key value = some (after,array) ∧
      Refines value after array (∅ : Finmap fun _ : Key key => Word) operations) ↔
      key.Fits ∧ Along (Operation.Kept value) ∅ operations := by
  have new := IsArray.allocate key value heap []
  constructor
  · rintro ⟨after,array,made,refines⟩
    obtain ⟨rfl,rfl⟩ := Prod.mk.inj (Option.some.inj made)
    have fits := fits_of_shows new refines.shows
    exact ⟨fits,kept_of_refines fits operations new refines⟩
  · rintro ⟨fits,kept⟩
    exact ⟨_,_,rfl,refines_of_kept fits operations new .empty defined kept⟩

def noObjects : Heap := ⟨[],fun handle sequence first last found => by simp at found⟩

/-- An array with keys of 32 bits, of which one is negative. -/
def counts : List (Operation (.integerTy 32 true)) :=
  let first : Key (.integerTy 32 true) := ⟨-1,by simp [Ty.Holds]⟩
  let second : Key (.integerTy 32 true) := ⟨2,by simp [Ty.Holds]⟩
  [.insert first,.write first 10,.insert second,.remove second,.has second,.keys]

theorem counts_refines : ∃ after array,
    noObjects.allocateAssocArray (.integerTy 32 true) (.integerTy 64 false) = some (after,array) ∧
      Refines (.integerTy 64 false) after array (∅ : Finmap fun _ : Key (.integerTy 32 true) => Word) counts := by
  refine (refines_iff _ _ _ _ (by simp [counts,Along,Operation.Defined])).mpr ⟨by simp [Ty.Fits],?_⟩
  exact ⟨.inl rfl,trivial,.inl rfl,.inl rfl,trivial,trivial,trivial⟩

/-- A key that is a pointer, written and removed. -/
def visited : List (Operation .pointerTy) :=
  let node : Key .pointerTy := ⟨16,by simp [Ty.Holds]⟩
  [.write node 1,.remove node]

/-- The pointer is still there. -/
theorem visited_not_refines :
    ¬ ∃ after array, noObjects.allocateAssocArray .pointerTy (.integerTy 64 false) =
        some (after,array) ∧
      Refines (.integerTy 64 false) after array (∅ : Finmap fun _ : Key .pointerTy => Word)
        visited := by
  rintro ⟨after,array,made,refines⟩
  obtain ⟨rfl,rfl⟩ := Prod.mk.inj (Option.some.inj made)
  have fits : Ty.pointerTy.Fits := trivial
  have kept := kept_of_refines fits visited (.allocate _ _ _ []) refines
  obtain ⟨_,removed,_⟩ := kept
  rcases removed with isInteger | absent
  · exact absurd isInteger (by decide)
  · exact absent (Finset.mem_insert_self _ _)

end AssocArray
end Runtime
end Memoir
