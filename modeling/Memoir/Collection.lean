import Mathlib.Data.List.Basic

/-! Contents of sequences and associative arrays over any type of references, and
the operations of the runtime on them. `none` is an access out of bounds. Nothing
here looks at a reference, so every operation commutes with renaming references. -/
namespace Memoir

abbrev Word := Nat

inductive Datum (ρ : Type)
  | scalar (word : Word)
  | collection (reference : ρ)
  deriving DecidableEq

def Datum.map {ρ σ : Type} (rename : ρ → σ) : Datum ρ → Datum σ
  | .scalar word => .scalar word
  | .collection reference => .collection (rename reference)

/-- The entries of an associative array are kept in the order of insertion. -/
inductive Content (ρ : Type)
  | sequence (elements : List (Datum ρ))
  | assoc (entries : List (Word × Datum ρ))
  deriving DecidableEq

namespace Content

variable {ρ σ : Type}

def map (rename : ρ → σ) : Content ρ → Content σ
  | .sequence elements => .sequence (elements.map (Datum.map rename))
  | .assoc entries => .assoc (entries.map fun entry => (entry.1,entry.2.map rename))

def references : Content ρ → List ρ
  | .sequence elements => elements.filterMap fun | .collection reference => some reference | _ => none
  | .assoc entries => entries.filterMap fun | (_,.collection reference) => some reference | _ => none

end Content

def setEntry {α : Type} (entries : List (Word × α)) (key : Word) (value : α) : List (Word × α) :=
  if (entries.lookup key).isSome then
    entries.map fun entry => if entry.1 = key then (key,value) else entry
  else entries ++ [(key,value)]

def eraseEntry {α : Type} (entries : List (Word × α)) (key : Word) : List (Word × α) :=
  entries.filter fun entry => entry.1 ≠ key

/-- `std::swap` of two positions of one vector. -/
def swapAt {α : Type} (elements : List α) (i j : Nat) : List α :=
  match elements[i]?,elements[j]? with
  | some x,some y => (elements.set i y).set j x
  | _,_ => elements

def swapLoop {α : Type} (elements : List α) (i j : Nat) : Nat → List α
  | 0 => elements
  | count + 1 => swapLoop (swapAt elements i j) (i + 1) (j + 1) count

def splice {α : Type} (elements : List α) (index count : Nat) (inserted : List α) : List α :=
  elements.take index ++ inserted ++ elements.drop (index + count)

def slice {α : Type} (elements : List α) (first last : Nat) : List α :=
  (elements.drop first).take (last - first)

inductive Event
  | value (word : Option Word)
  | called (callee : Nat) (scalars : List Word) (contents : List (Content Unit))
  deriving DecidableEq

/-- The answer of a function outside the program; a collection it returns is new. -/
inductive Reply
  | none
  | scalar (word : Word)
  | collection (content : Content Empty)

/-- A MemOIR operation with its scalar operands evaluated; `none` is the end of a
sequence. The collections it mutates and reads come separately. -/
inductive Operation (ρ : Type)
  | indexWrite (index : Word) (value : Datum ρ)
  | assocWrite (key : Word) (value : Datum ρ)
  | seqInsert (index : Option Word) (value : Datum ρ)
  | seqInsertSeq (index : Option Word)
  | seqRemove (first last : Option Word)
  | seqSwap (first last toFirst : Option Word)
  | seqSwapWithin (first last toFirst : Option Word)
  | seqSplit (first last : Word)
  | assocInsert (key : Word)
  | assocRemove (key : Word)
  | indexRead (index : Word)
  | assocRead (key : Word)
  | assocHas (key : Word)
  | size
  | assocKeys
  | seqCopy (first last : Option Word)
  | seqAlloc (length : Word)
  | assocAlloc
  | call (callee : Nat) (scalars : List Word) (reply : Reply)

/-- New contents of the mutated collections (`none` where nothing changes), the
content of a new collection, a result and what is shown. -/
structure Outcome (ρ : Type) where
  mutated : List (Option (Content ρ))
  created : Option (Content ρ)
  result : Option (Datum ρ)
  events : List Event

namespace Outcome

variable {ρ σ : Type}

def write (content : Content ρ) : Outcome ρ := ⟨[some content],none,none,[]⟩
def create (content : Content ρ) : Outcome ρ := ⟨[],some content,none,[]⟩

def show_ : Datum ρ → Option Word
  | .scalar word => some word
  | .collection _ => none

def read (datum : Datum ρ) : Outcome ρ := ⟨[],none,some datum,[.value (show_ datum)]⟩

def map (rename : ρ → σ) (outcome : Outcome ρ) : Outcome σ :=
  ⟨outcome.mutated.map (Option.map (Content.map rename)),outcome.created.map (Content.map rename),
    outcome.result.map (Datum.map rename),outcome.events⟩

end Outcome

namespace Operation

variable {ρ σ : Type}

def map (rename : ρ → σ) : Operation ρ → Operation σ
  | indexWrite index value => indexWrite index (value.map rename)
  | assocWrite key value => assocWrite key (value.map rename)
  | seqInsert index value => seqInsert index (value.map rename)
  | seqInsertSeq index => seqInsertSeq index
  | seqRemove first last => seqRemove first last
  | seqSwap first last toFirst => seqSwap first last toFirst
  | seqSwapWithin first last toFirst => seqSwapWithin first last toFirst
  | seqSplit first last => seqSplit first last
  | assocInsert key => assocInsert key
  | assocRemove key => assocRemove key
  | indexRead index => indexRead index
  | assocRead key => assocRead key
  | assocHas key => assocHas key
  | size => size
  | assocKeys => assocKeys
  | seqCopy first last => seqCopy first last
  | seqAlloc length => seqAlloc length
  | assocAlloc => assocAlloc
  | call callee scalars reply => call callee scalars reply

def replied (contents : List (Content ρ)) (callee : Nat) (scalars : List Word) (reply : Reply) :
    Outcome ρ :=
  let events := [.called callee scalars (contents.map (Content.map fun _ => ()))]
  match reply with
  | .none => ⟨[],none,none,events⟩
  | .scalar word => ⟨[],none,some (.scalar word),events⟩
  | .collection content => ⟨[],some (content.map Empty.elim),none,events⟩

/-- The operation on the contents of the collections it mutates and reads. A read
of an absent key of an associative array inserts the key with a zero element. -/
def run : Operation ρ → List (Content ρ) → List (Content ρ) → Option (Outcome ρ)
  | .indexWrite index value,[.sequence xs],[] =>
    if index < xs.length then some (.write (.sequence (xs.set index value))) else none
  | .assocWrite key value,[.assoc entries],[] =>
    some (.write (.assoc (setEntry entries key value)))
  | .seqInsert index value,[.sequence xs],[] =>
    let index := index.getD xs.length
    if index ≤ xs.length then some (.write (.sequence (splice xs index 0 [value]))) else none
  | .seqInsertSeq index,[.sequence xs],[.sequence ys] =>
    let index := index.getD xs.length
    if index ≤ xs.length then some (.write (.sequence (splice xs index 0 ys))) else none
  | .seqRemove first last,[.sequence xs],[] =>
    let first := first.getD xs.length
    let last := last.getD xs.length
    if first ≤ last ∧ last ≤ xs.length then
      some (.write (.sequence (splice xs first (last - first) [])))
    else none
  | .seqSwap first last toFirst,[.sequence xs,.sequence ys],[] =>
    let first := first.getD xs.length
    let last := last.getD xs.length
    let toFirst := toFirst.getD ys.length
    let count := last - first
    if first ≤ last ∧ last ≤ xs.length ∧ toFirst + count ≤ ys.length then
      some ⟨[some (.sequence (splice xs first count (slice ys toFirst (toFirst + count)))),
        some (.sequence (splice ys toFirst count (slice xs first last)))],none,none,[]⟩
    else none
  | .seqSwapWithin first last toFirst,[.sequence xs],[] =>
    let first := first.getD xs.length
    let last := last.getD xs.length
    let toFirst := toFirst.getD xs.length
    let count := last - first
    if first ≤ last ∧ last ≤ xs.length ∧ toFirst + count ≤ xs.length then
      some (.write (.sequence (swapLoop xs first toFirst count)))
    else none
  | .seqSplit first last,[.sequence xs],[] =>
    if first ≤ last ∧ last ≤ xs.length then
      some ⟨[some (.sequence (splice xs first (last - first) []))],
        some (.sequence (slice xs first last)),none,[]⟩
    else none
  | .assocInsert key,[.assoc entries],[] =>
    some (.write (.assoc
      (if (entries.lookup key).isSome then entries else entries ++ [(key,.scalar 0)])))
  | .assocRemove key,[.assoc entries],[] => some (.write (.assoc (eraseEntry entries key)))
  | .indexRead index,[],[.sequence xs] => xs[index]?.map .read
  | .assocRead key,[.assoc entries],[] =>
    match entries.lookup key with
    | some datum => some {Outcome.read datum with mutated := [none]}
    | none => some {Outcome.read (.scalar 0) with
        mutated := [some (.assoc (entries ++ [(key,.scalar 0)]))]}
  | .assocHas key,[],[.assoc entries] =>
    some (.read (.scalar (if (entries.lookup key).isSome then 1 else 0)))
  | .size,[],[.sequence xs] => some (.read (.scalar xs.length))
  | .size,[],[.assoc entries] => some (.read (.scalar entries.length))
  | .assocKeys,[],[.assoc entries] =>
    some (.create (.sequence (entries.map fun entry => .scalar entry.1)))
  | .seqCopy first last,[],[.sequence xs] =>
    let first := first.getD xs.length
    let last := last.getD xs.length
    if first ≤ last ∧ last ≤ xs.length then some (.create (.sequence (slice xs first last)))
    else none
  | .seqAlloc length,[],[] => some (.create (.sequence (List.replicate length (.scalar 0))))
  | .assocAlloc,[],[] => some (.create (.assoc []))
  | .call callee scalars reply,[],contents => some (replied contents callee scalars reply)
  | _,_,_ => none

end Operation

namespace Content

variable {ρ σ τ : Type}

theorem map_map (first : ρ → σ) (second : σ → τ) (content : Content ρ) :
    (content.map first).map second = content.map (second ∘ first) := by
  have datum : (Datum.map second) ∘ (Datum.map first) = Datum.map (second ∘ first) := by
    funext datum
    cases datum <;> rfl
  cases content with
  | sequence elements => simp only [map,List.map_map,datum]
  | assoc entries =>
    simp only [map,List.map_map]
    congr 2
    funext entry
    exact congrArg (Prod.mk entry.1) (congrFun datum entry.2)

/-- Renamings that agree on the references of a content rename it alike. -/
theorem map_congr (first second : ρ → σ) (content : Content ρ)
    (agree : ∀ reference ∈ content.references, first reference = second reference) :
    content.map first = content.map second := by
  cases content with
  | sequence elements =>
    simp only [map,sequence.injEq]
    refine List.map_congr_left fun datum member => ?_
    cases datum with
    | scalar word => rfl
    | collection reference =>
      simp only [Datum.map,Datum.collection.injEq]
      exact agree reference (List.mem_filterMap.mpr ⟨_,member,rfl⟩)
  | assoc entries =>
    simp only [map,assoc.injEq]
    refine List.map_congr_left fun entry member => ?_
    obtain ⟨key,datum⟩ := entry
    cases datum with
    | scalar word => rfl
    | collection reference =>
      simp only [Datum.map,Prod.mk.injEq,Datum.collection.injEq,true_and]
      exact agree reference (List.mem_filterMap.mpr ⟨_,member,rfl⟩)

end Content

theorem lookup_map {α β : Type} (function : α → β) (entries : List (Word × α)) (key : Word) :
    (entries.map fun entry => (entry.1,function entry.2)).lookup key =
      (entries.lookup key).map function := by
  induction entries with
  | nil => rfl
  | cons entry entries ih =>
    obtain ⟨first,value⟩ := entry
    simp only [List.map_cons,List.lookup_cons]
    cases key == first <;> simp [ih]

theorem setEntry_map {α β : Type} (function : α → β) (entries : List (Word × α)) (key : Word)
    (value : α) :
    setEntry (entries.map fun entry => (entry.1,function entry.2)) key (function value) =
      (setEntry entries key value).map fun entry => (entry.1,function entry.2) := by
  simp only [setEntry,lookup_map,Option.isSome_map]
  split
  · simp only [List.map_map]
    refine List.map_congr_left fun entry _ => ?_
    simp only [Function.comp_apply]
    split <;> rfl
  · simp

theorem eraseEntry_map {α β : Type} (function : α → β) (entries : List (Word × α)) (key : Word) :
    eraseEntry (entries.map fun entry => (entry.1,function entry.2)) key =
      (eraseEntry entries key).map fun entry => (entry.1,function entry.2) := by
  simp only [eraseEntry,List.filter_map]
  rfl

theorem swapLoop_map {α β : Type} (function : α → β) (count i j : Nat) (elements : List α) :
    swapLoop (elements.map function) i j count = (swapLoop elements i j count).map function := by
  induction count generalizing elements i j with
  | zero => rfl
  | succ count ih =>
    have step : swapAt (elements.map function) i j = (swapAt elements i j).map function := by
      simp only [swapAt,List.getElem?_map]
      cases elements[i]? <;> cases elements[j]? <;> simp
    rw [swapLoop,step,ih,swapLoop]

theorem splice_map {α β : Type} (function : α → β) (elements inserted : List α)
    (index count : Nat) :
    splice (elements.map function) index count (inserted.map function) =
      (splice elements index count inserted).map function := by
  simp [splice]

theorem slice_map {α β : Type} (function : α → β) (elements : List α) (first last : Nat) :
    slice (elements.map function) first last = (slice elements first last).map function := by
  simp [slice]

section
variable {ρ σ : Type} (rename : ρ → σ)

@[simp] theorem Content.map_sequence (elements : List (Datum ρ)) :
    (Content.sequence elements).map rename = .sequence (elements.map (Datum.map rename)) := rfl

@[simp] theorem Content.map_assoc (entries : List (Word × Datum ρ)) :
    (Content.assoc entries).map rename =
      .assoc (entries.map fun entry => (entry.1,entry.2.map rename)) := rfl

@[simp] theorem Outcome.map_write (content : Content ρ) :
    (Outcome.write content).map rename = .write (content.map rename) := rfl

@[simp] theorem Outcome.map_create (content : Content ρ) :
    (Outcome.create content).map rename = .create (content.map rename) := rfl

@[simp] theorem Outcome.map_read (datum : Datum ρ) :
    (Outcome.read datum).map rename = .read (datum.map rename) := by
  cases datum <;> rfl

theorem Operation.replied_map (contents : List (Content ρ)) (callee : Nat) (scalars : List Word)
    (reply : Reply) : replied (contents.map (Content.map rename)) callee scalars reply =
      (replied contents callee scalars reply).map rename := by
  have shown : (contents.map (Content.map rename)).map (Content.map fun _ => ()) =
      contents.map (Content.map fun _ => ()) := by
    rw [List.map_map]
    exact List.map_congr_left fun content _ => content.map_map rename _
  cases reply with
  | none => simp only [replied,shown,Outcome.map,List.map_nil,Option.map_none]
  | scalar word => simp only [replied,shown,Outcome.map,List.map_nil,Option.map_none,Option.map_some,
      Datum.map]
  | collection content =>
    have empty : (Content.map Empty.elim content : Content σ) =
        (Content.map Empty.elim content : Content ρ).map rename := by
      rw [Content.map_map]
      congr 1
      funext none
      exact none.elim
    simp only [replied,shown,Outcome.map,List.map_nil,Option.map_none,Option.map_some,empty]

/-- Operations do not look at references. -/
theorem Operation.run_map (operation : Operation ρ) (mutated read : List (Content ρ)) :
    (operation.map rename).run (mutated.map (Content.map rename)) (read.map (Content.map rename)) =
      (operation.run mutated read).map (Outcome.map rename) := by
  cases operation with
  | indexWrite index value =>
    rcases mutated with _ | ⟨_ | _,_ | _⟩ <;> rcases read with _ | _ <;> try rfl
    rename_i xs
    simp only [List.map_cons,List.map_nil,Content.map_sequence,map,run,List.length_map]
    split <;> simp [List.map_set]
  | assocWrite key value =>
    rcases mutated with _ | ⟨_ | _,_ | _⟩ <;> rcases read with _ | _ <;> try rfl
    simp only [List.map_cons,List.map_nil,Content.map_assoc,map,run,setEntry_map,Option.map_some,
      Outcome.map_write]
  | seqInsert index value =>
    rcases mutated with _ | ⟨_ | _,_ | _⟩ <;> rcases read with _ | _ <;> try rfl
    rename_i xs
    have spliced := splice_map (Datum.map rename) xs [value] (index.getD xs.length) 0
    simp only [List.map_cons,List.map_nil,Content.map_sequence,map,run,List.length_map] at spliced ⊢
    split <;> simp [spliced]
  | seqInsertSeq index =>
    rcases mutated with _ | ⟨_ | _,_ | _⟩ <;> rcases read with _ | ⟨_ | _,_ | _⟩ <;> try rfl
    simp only [List.map_cons,List.map_nil,Content.map_sequence,map,run,List.length_map]
    split <;> simp [splice_map]
  | seqRemove first last =>
    rcases mutated with _ | ⟨_ | _,_ | _⟩ <;> rcases read with _ | _ <;> try rfl
    rename_i xs
    have spliced := splice_map (Datum.map rename) xs [] (first.getD xs.length)
      (last.getD xs.length - first.getD xs.length)
    simp only [List.map_cons,List.map_nil,Content.map_sequence,map,run,List.length_map] at spliced ⊢
    split <;> simp [spliced]
  | seqSwap first last toFirst =>
    rcases mutated with _ | ⟨_ | _,_ | ⟨_ | _,_ | _⟩⟩ <;> rcases read with _ | _ <;> try rfl
    simp only [List.map_cons,List.map_nil,Content.map_sequence,map,run,List.length_map,slice_map,
      splice_map]
    split <;> simp [Outcome.map]
  | seqSwapWithin first last toFirst =>
    rcases mutated with _ | ⟨_ | _,_ | _⟩ <;> rcases read with _ | _ <;> try rfl
    simp only [List.map_cons,List.map_nil,Content.map_sequence,map,run,List.length_map,swapLoop_map]
    split <;> simp
  | seqSplit first last =>
    rcases mutated with _ | ⟨_ | _,_ | _⟩ <;> rcases read with _ | _ <;> try rfl
    rename_i xs
    have spliced := splice_map (Datum.map rename) xs [] first (last - first)
    simp only [List.map_cons,List.map_nil,Content.map_sequence,map,run,List.length_map,slice_map]
      at spliced ⊢
    split <;> simp [spliced,Outcome.map]
  | assocInsert key =>
    rcases mutated with _ | ⟨_ | _,_ | _⟩ <;> rcases read with _ | _ <;> try rfl
    simp only [List.map_cons,List.map_nil,Content.map_assoc,map,run,lookup_map,Option.isSome_map]
    split <;> simp [Datum.map]
  | assocRemove key =>
    rcases mutated with _ | ⟨_ | _,_ | _⟩ <;> rcases read with _ | _ <;> try rfl
    simp only [List.map_cons,List.map_nil,Content.map_assoc,map,run,eraseEntry_map,Option.map_some,
      Outcome.map_write]
  | indexRead index =>
    rcases mutated with _ | _ <;> rcases read with _ | ⟨_ | _,_ | _⟩ <;> try rfl
    rename_i xs
    simp only [List.map_cons,List.map_nil,Content.map_sequence,map,run,List.getElem?_map]
    cases xs[index]? <;> simp
  | assocRead key =>
    rcases mutated with _ | ⟨_ | _,_ | _⟩ <;> rcases read with _ | _ <;> try rfl
    rename_i entries
    simp only [List.map_cons,List.map_nil,Content.map_assoc,map,run,lookup_map]
    cases found : entries.lookup key with
    | none => simp [Outcome.map,Outcome.read,Datum.map,Outcome.show_]
    | some datum => cases datum <;> simp [Outcome.map,Outcome.read,Datum.map,Outcome.show_]
  | assocHas key =>
    rcases mutated with _ | _ <;> rcases read with _ | ⟨_ | _,_ | _⟩ <;> try rfl
    simp only [List.map_cons,List.map_nil,Content.map_assoc,map,run,lookup_map,Option.isSome_map]
    split <;> simp [Datum.map]
  | size =>
    rcases mutated with _ | _ <;> rcases read with _ | ⟨_ | _,_ | _⟩ <;> try rfl
    · simp [run,map,Datum.map]
    · simp [run,map,Datum.map]
  | assocKeys =>
    rcases mutated with _ | _ <;> rcases read with _ | ⟨_ | _,_ | _⟩ <;> try rfl
    simp only [List.map_cons,List.map_nil,Content.map_assoc,map,run,List.map_map,Option.map_some,
      Outcome.map_create,Content.map_sequence]
    rfl
  | seqCopy first last =>
    rcases mutated with _ | _ <;> rcases read with _ | ⟨_ | _,_ | _⟩ <;> try rfl
    simp only [List.map_cons,List.map_nil,Content.map_sequence,map,run,List.length_map,slice_map]
    split <;> simp
  | seqAlloc size =>
    rcases mutated with _ | _ <;> rcases read with _ | _ <;> try rfl
    simp [run,map,Datum.map]
  | assocAlloc =>
    rcases mutated with _ | _ <;> rcases read with _ | _ <;> rfl
  | call callee scalars reply =>
    rcases mutated with _ | _
    · simp only [List.map_nil,map,run,replied_map,Option.map_some]
    · rfl

end

end Memoir
