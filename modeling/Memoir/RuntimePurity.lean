import Memoir.Runtime

/-! Which calls of the immutable operations leave every collection as it was. -/
namespace Memoir
namespace Runtime

/-- The calls of the operations with `__IMMUT_ATTR`. The four PHIs return their argument. -/
inductive Call
  | phi (collection : Nat)
  | size (collection : Nat)
  | endOf
  | sequenceCopy (collection : Nat) (i j : Nat)
  | sequenceInsertElement (value : Word) (collection : Nat) (index : Nat)
  | sequenceInsert (toInsert collection : Nat) (index : Nat)
  | sequenceRemove (collection : Nat) (first last : Nat)
  | sequenceSwap (collection : Nat) (i j : Nat) (collection' : Nat) (i' : Nat)
  | sequenceSwapWithin (collection : Nat) (first last toFirst : Nat)
  | assocHas (collection : Nat) (arguments : List Word)
  | assocRemove (collection : Nat) (argument : Word)
  | assocInsert (collection : Nat) (argument : Word)
  | assocKeys (collection : Nat)
  | indexRead (collection : Nat) (arguments : List Word)
  | assocRead (collection : Nat) (arguments : List Word)
  | indexGet (collection : Nat) (arguments : List Word)
  | assocGet (collection : Nat) (arguments : List Word)
  | indexWrite (value : Word) (collection : Nat) (arguments : List Word)
  | assocWrite (value : Word) (collection : Nat) (arguments : List Word)
  | structRead (struct field : Nat)
  | allocateStruct (ty : Ty)
  | allocateTensor (element : Ty) (lengths : List Word)
  | allocateAssocArray (key value : Ty)
  | allocateSequence (element : Ty) (initialSize : Nat)

inductive Result
  | word (word : Word)
  | flag (flag : Bool)
  | collection (handle : Nat)
  | pair (first second : Nat)

def created (made : Heap × Nat) : Heap × Result := (made.1,.collection made.2)

def found (made : Heap × Word) : Heap × Result := (made.1,.word made.2)

def Call.run (heap : Heap) : Call → Option (Heap × Result)
  | phi collection => some (heap,.collection collection)
  | size collection => (heap.size collection).map fun size => (heap,.word size)
  | endOf => some (heap,.word endOfSequence)
  | sequenceCopy collection i j => (heap.sequenceCopy collection i j).map created
  | sequenceInsertElement value collection index =>
    (heap.sequenceInsertElement value collection index).map created
  | sequenceInsert toInsert collection index =>
    (heap.sequenceInsert toInsert collection index).map created
  | sequenceRemove collection first last => (heap.sequenceRemove collection first last).map created
  | sequenceSwap collection i j collection' i' =>
    (heap.sequenceSwap collection i j collection' i').map fun made => (made.1,.pair made.2.1 made.2.2)
  | sequenceSwapWithin collection first last toFirst =>
    (heap.sequenceSwapWithin collection first last toFirst).map created
  | assocHas collection arguments =>
    (heap.hasElement collection arguments).map fun has => (heap,.flag has)
  | assocRemove collection argument => (heap.assocRemove collection argument).map created
  | assocInsert collection argument => (heap.assocInsert collection argument).map created
  | assocKeys collection => (heap.assocKeys collection).map created
  | indexRead collection arguments => (heap.indexRead collection arguments).map found
  | assocRead collection arguments => (heap.assocRead collection arguments).map found
  | indexGet collection arguments => (heap.indexGet collection arguments).map found
  | assocGet collection arguments => (heap.assocGet collection arguments).map found
  | indexWrite value collection arguments => (heap.indexWrite value collection arguments).map created
  | assocWrite value collection arguments => (heap.assocWrite value collection arguments).map created
  | structRead struct field => (heap.structRead struct field).map fun value => (heap,.word value)
  | allocateStruct ty => (heap.allocateStruct ty).map created
  | allocateTensor element lengths => (heap.allocateTensor element lengths).map created
  | allocateAssocArray key value => (heap.allocateAssocArray key value).map created
  | allocateSequence element initialSize => (heap.allocateSequence element initialSize).map created

def Unchanged (before after : Heap) : Prop :=
  ∀ collection, before.size collection ≠ none →
    after.contents collection = before.contents collection ∧
      after.size collection = before.size collection

/-- A copy of nothing, a read of what is there, a write of what is there already. -/
def Call.Harmless (heap : Heap) : Call → Prop
  | sequenceCopy collection i j => heap.resolve collection i = heap.resolve collection j
  | indexRead collection arguments | assocRead collection arguments | indexGet collection arguments
  | assocGet collection arguments => (heap.element collection arguments).isSome
  | indexWrite value collection arguments | assocWrite value collection arguments =>
    heap.element collection arguments = some value
  | _ => True

def Extends (before after : Heap) : Prop := before.memory <+: after.memory

namespace Heap

variable {heap : Heap} {handle other : Nat} {contents contents' : Contents}

theorem get_lt {object : Object} (found : heap.get handle = some object) :
    handle < heap.memory.length := by
  by_contra above
  simp [get,List.getElem?_eq_none (Nat.le_of_not_lt above)] at found

theorem get_write (below : handle < heap.memory.length) :
    (heap.write handle contents).get handle = some (.owned contents) := by
  simp [get,write,below]

theorem get_write_ne (apart : handle ≠ other) :
    (heap.write handle contents).get other = heap.get other := by
  simp [get,write,List.getElem?_set_ne apart]

theorem write_self (found : heap.get handle = some (.owned contents)) :
    heap.write handle contents = heap := by
  have below := get_lt found
  obtain ⟨memory,views⟩ := heap
  simp only [get,Option.join_eq_some_iff] at found
  have same : memory.set handle (some (.owned contents)) = memory := by
    apply List.ext_getElem?
    intro i
    rw [List.getElem?_set]
    split_ifs with same <;> simp_all
  simp only [write,same]

end Heap

open Heap

section
variable {heap before middle after : Heap} {handle : Nat} {contents : Contents}

theorem Extends.refl (heap : Heap) : Extends heap heap := List.prefix_refl _

theorem Extends.trans (first : Extends before middle) (second : Extends middle after) :
    Extends before after :=
  List.IsPrefix.trans first second

theorem Extends.allocate (heap : Heap) (contents : Contents) :
    Extends heap (heap.allocate contents).1 :=
  List.prefix_append _ _

theorem Extends.get (more : Extends before after) (below : handle < before.memory.length) :
    after.get handle = before.get handle := by
  obtain ⟨rest,same⟩ := more
  simp [Heap.get,← same,List.getElem?_append_left below]

theorem Extends.unchanged (more : Extends before after) : Unchanged before after := by
  intro collection isCollection
  have below : collection < before.memory.length := by
    cases found : before.get collection with
    | none => exact absurd (by simp [size,found]) isCollection
    | some object => exact get_lt found
  have same := more.get below
  refine ⟨?_,by simp only [size,same]⟩
  unfold Heap.contents
  rw [same]
  cases found : before.get collection with
  | none => rfl
  | some object =>
    cases object with
    | owned contents => rfl
    | view sequence first last =>
      have there := before.views collection sequence first last (Option.join_eq_some_iff.mp found)
      simp only [range,vector,more.get there]

theorem repeated_extends {make : Heap → Option (Heap × Word)}
    (each : ∀ before after value, make before = some (after,value) → Extends before after)
    {count : Nat} {values : List Word} (made : repeated make count before = some (after,values)) :
    Extends before after := by
  induction count generalizing before values with
  | zero =>
    simp only [repeated,Option.some.injEq,Prod.mk.injEq] at made
    exact made.1 ▸ Extends.refl before
  | succ count ih =>
    simp only [repeated,Option.bind_eq_bind,Option.bind_eq_some_iff,Option.pure_def,Option.some.injEq,
      Prod.mk.injEq,Prod.exists] at made
    obtain ⟨middle,value,first,last,values',rest,rfl,_⟩ := made
    exact (each _ _ _ first).trans (ih rest)

mutual

theorem initElement_extends (ty : Ty) {before after : Heap} {value : Word}
    (made : initElement ty before = some (after,value)) : Extends before after := by
  cases ty with
  | structTy fields =>
    simp only [initElement,newStruct,Option.bind_eq_bind,Option.bind_eq_some_iff,Option.pure_def,
      Option.some.injEq,Prod.mk.injEq,Prod.exists] at made
    obtain ⟨heap,values,inner,rfl,_⟩ := made
    exact (initFields_extends fields inner).trans (.allocate _ _)
  | tensorTy element lengths =>
    simp only [initElement,newTensor,Option.bind_eq_bind,Option.bind_eq_some_iff,Option.pure_def] at made
    obtain ⟨lengths,_,length,_,made⟩ := made
    split_ifs at made
    · exact absurd made (by simp)
    simp only [Option.bind_eq_some_iff,Option.some.injEq,Prod.mk.injEq] at made
    obtain ⟨⟨heap,values⟩,inner,rfl,_⟩ := made
    have more := repeated_extends (fun _ _ _ => initElement_extends element) (initElements_repeated inner)
    exact more.trans (.allocate _ _)
  | sequenceTy element =>
    simp only [initElement,newSequence,Option.bind_eq_bind,Option.bind_eq_some_iff,Option.pure_def,
      Option.some.injEq,Prod.mk.injEq,Prod.exists] at made
    obtain ⟨heap,values,inner,rfl,_⟩ := made
    have more := repeated_extends (fun _ _ _ => initElement_extends element) (initElements_repeated inner)
    exact more.trans (.allocate _ _)
  | assocArrayTy key value =>
    simp only [initElement,Option.pure_def,Option.some.injEq,Prod.mk.injEq] at made
    exact made.1 ▸ .allocate _ _
  | noneTy => exact absurd made (by simp [initElement])
  | _ =>
    simp only [initElement,Option.some.injEq,Prod.mk.injEq] at made
    exact made.1 ▸ .refl _

theorem initFields_extends (fields : List Ty) {before after : Heap} {values : List Word}
    (made : initFields fields before = some (after,values)) : Extends before after := by
  cases fields with
  | nil =>
    simp only [initFields,Option.some.injEq,Prod.mk.injEq] at made
    exact made.1 ▸ Extends.refl before
  | cons field fields =>
    simp only [initFields,Option.bind_eq_bind,Option.bind_eq_some_iff,Option.pure_def,
      Option.some.injEq,Prod.mk.injEq,Prod.exists] at made
    obtain ⟨middle,value,first,last,values',rest,rfl,_⟩ := made
    exact (initElement_extends field first).trans (initFields_extends fields rest)

end

section
variable {made : Heap × Nat} {collection : Nat}

theorem Extends.allocated {contents : Contents} (same : made = heap.allocate contents) :
    Extends heap made.1 :=
  same ▸ .allocate heap contents

theorem sequenceInsertElement_extends {value : Word} {index : Nat}
    (ran : heap.sequenceInsertElement value collection index = some made) : Extends heap made.1 := by
  simp only [sequenceInsertElement,Option.bind_eq_bind,Option.bind_eq_some_iff,Option.pure_def,
    Option.some.injEq] at ran
  obtain ⟨_,_,_,_,_,_,_,_,_,_,_,_,_,_,_,_,same⟩ := ran
  exact .allocated same.symm

theorem sequenceInsert_extends {toInsert : Nat} {index : Nat}
    (ran : heap.sequenceInsert toInsert collection index = some made) : Extends heap made.1 := by
  simp only [sequenceInsert,Option.bind_eq_bind,Option.bind_eq_some_iff,Option.pure_def,
    Option.some.injEq] at ran
  obtain ⟨_,_,_,_,_,_,_,_,_,_,_,_,_,_,_,_,_,_,_,_,_,_,same⟩ := ran
  exact .allocated same.symm

theorem sequenceRemove_extends {first last : Nat}
    (ran : heap.sequenceRemove collection first last = some made) : Extends heap made.1 := by
  simp only [sequenceRemove,Option.bind_eq_bind,Option.bind_eq_some_iff,Option.pure_def,
    Option.some.injEq] at ran
  obtain ⟨_,_,_,_,_,_,_,_,_,_,_,_,_,_,_,_,same⟩ := ran
  exact .allocated same.symm

theorem sequenceSwapWithin_extends {first last toFirst : Nat}
    (ran : heap.sequenceSwapWithin collection first last toFirst = some made) :
    Extends heap made.1 := by
  simp only [sequenceSwapWithin,Option.bind_eq_bind,Option.bind_eq_some_iff,Option.pure_def] at ran
  obtain ⟨_,_,_,_,_,_,_,_,_,_,ran⟩ := ran
  split_ifs at ran
  simp only [Option.bind_eq_some_iff] at ran
  obtain ⟨_,_,_,_,ran⟩ := ran
  split_ifs at ran
  exact .allocated (Option.some.inj ran).symm

theorem sequenceSwap_extends {i j i' : Nat} {collection' : Nat} {made : Heap × Nat × Nat}
    (ran : heap.sequenceSwap collection i j collection' i' = some made) : Extends heap made.1 := by
  simp only [sequenceSwap,Option.bind_eq_bind,Option.bind_eq_some_iff,Option.pure_def] at ran
  obtain ⟨_,_,_,_,_,_,_,_,_,_,_,_,ran⟩ := ran
  split_ifs at ran
  simp only [Option.bind_eq_some_iff] at ran
  obtain ⟨_,_,_,_,ran⟩ := ran
  split_ifs at ran
  obtain rfl := Option.some.inj ran
  exact (Extends.allocate _ _).trans (.allocate _ _)

theorem assocRemove_extends {argument : Word}
    (ran : heap.assocRemove collection argument = some made) : Extends heap made.1 := by
  unfold assocRemove at ran
  split at ran
  · simp only [Option.bind_eq_bind,Option.bind_eq_some_iff,Option.pure_def,Option.some.injEq] at ran
    obtain ⟨_,_,same⟩ := ran
    exact .allocated same.symm
  · exact absurd ran (by simp)

theorem assocKeys_extends (ran : heap.assocKeys collection = some made) : Extends heap made.1 := by
  unfold assocKeys at ran
  split at ran
  · exact .allocated (Option.some.inj ran).symm
  · exact absurd ran (by simp)

theorem initElements_extends {element : Ty} {count : Nat} {values : List Word}
    (ran : initElements element count before = some (after,values)) : Extends before after :=
  repeated_extends (fun _ _ _ => initElement_extends element) (initElements_repeated ran)

theorem allocateStruct_extends {ty : Ty} (ran : heap.allocateStruct ty = some made) :
    Extends heap made.1 := by
  unfold allocateStruct at ran
  split at ran
  · simp only [Option.bind_eq_bind,Option.bind_eq_some_iff,Option.pure_def,Option.some.injEq,
      Prod.exists] at ran
    obtain ⟨_,_,inner,rfl⟩ := ran
    exact (initFields_extends _ inner).trans (.allocate _ _)
  · exact absurd ran (by simp)

theorem allocateTensor_extends {element : Ty} {lengths : List Word}
    (ran : heap.allocateTensor element lengths = some made) : Extends heap made.1 := by
  simp only [allocateTensor,Option.bind_eq_bind,Option.bind_eq_some_iff,Option.pure_def] at ran
  obtain ⟨length,_,ran⟩ := ran
  split_ifs at ran
  · exact absurd ran (by simp)
  simp only [Option.bind_eq_some_iff,Option.some.injEq,Prod.exists] at ran
  obtain ⟨_,_,inner,rfl⟩ := ran
  exact (initElements_extends inner).trans (.allocate _ _)

theorem allocateSequence_extends {element : Ty} {initialSize : Nat}
    (ran : heap.allocateSequence element initialSize = some made) : Extends heap made.1 := by
  simp only [allocateSequence,Option.bind_eq_bind,Option.bind_eq_some_iff,Option.pure_def,
    Option.some.injEq,Prod.exists] at ran
  obtain ⟨_,_,inner,rfl⟩ := ran
  exact (initElements_extends inner).trans (.allocate _ _)

end

theorem Heap.vector_eq {xs : List Word} :
    heap.vector handle = some xs ↔ heap.get handle = some (.owned (.sequence xs)) := by
  unfold vector
  split <;> simp_all

theorem Heap.size_vector {xs : List Word} (is : heap.vector handle = some xs) :
    heap.size handle = some xs.length := by
  simp [size,vector_eq.mp is]

theorem Extends.write (more : Extends before after) (beyond : before.memory.length ≤ handle) :
    Extends before (after.write handle contents) := by
  obtain ⟨rest,same⟩ := more
  refine ⟨rest.set (handle - before.memory.length) (some (.owned contents)),?_⟩
  simp only [Heap.write,← same]
  rw [List.set_append_right _ _ beyond]

theorem changed {contents' : Contents} (isCollection : before.size handle ≠ none)
    (was : before.get handle = some (.owned contents))
    (now : after.get handle = some (.owned contents')) (unchanged : Unchanged before after) :
    contents' = contents := by
  have same := (unchanged handle isCollection).1
  simpa only [Heap.contents,was,now,Option.some.injEq] using same

theorem unchanged_write_iff {contents' : Contents} (isCollection : heap.size handle ≠ none)
    (was : heap.get handle = some (.owned contents)) :
    Unchanged heap (heap.write handle contents') ↔ contents' = contents := by
  constructor
  · exact changed isCollection was (get_write (get_lt was))
  · rintro rfl
    rw [write_self was]
    exact (Extends.refl heap).unchanged

theorem set_eq_self_iff {xs : List Word} {index : Nat} {value : Word} (bound : index < xs.length) :
    xs.set index value = xs ↔ xs[index]? = some value := by
  constructor
  · intro same
    rw [← same]
    exact List.getElem?_set_self bound
  · intro is
    apply List.ext_getElem?
    intro i
    rw [List.getElem?_set]
    split_ifs with same <;> simp_all

theorem assign_eq_self_iff {entries : List (Word × Word)} {key value : Word} :
    assign entries key value = entries ↔ entries.lookup key = some value := by
  induction entries with
  | nil => simp [assign]
  | cons entry entries ih =>
    obtain ⟨key',value'⟩ := entry
    unfold assign
    rw [List.lookup_cons]
    by_cases same : key = key'
    · subst same
      simp [eq_comm]
    · have apart : (key == key') = false := beq_eq_false_iff_ne.mpr same
      simp only [if_neg same,apart,List.cons.injEq,true_and]
      exact ih

theorem setElement_unchanged_iff {value : Word} {collection : Nat} {arguments : List Word}
    (ran : heap.setElement value collection arguments = some after) :
    Unchanged heap after ↔ heap.element collection arguments = some value := by
  simp only [setElement,Option.bind_eq_bind,Option.bind_eq_some_iff] at ran
  obtain ⟨object,found,ran⟩ := ran
  rcases object with (fields | ⟨lengths,elements⟩ | ⟨key,value',entries⟩ | xs) | ⟨vector,first,last⟩
  · exact absurd ran (by simp)
  · simp only [Option.bind_eq_some_iff,Option.pure_def,Option.some.injEq] at ran
    obtain ⟨index,is,rfl⟩ := ran
    have bound : index < elements.length := by
      simp only [tensorElement,Option.bind_eq_bind,Option.bind_eq_some_iff] at is
      obtain ⟨_,_,is⟩ := is
      split_ifs at is with inside
      exact Option.some.inj is ▸ inside.2
    rw [unchanged_write_iff (by simp [size,found]) found]
    simp [Heap.element,found,is,set_eq_self_iff bound]
  · simp only [Option.bind_eq_some_iff,Option.pure_def,Option.some.injEq] at ran
    obtain ⟨argument,head,key',isKey,rfl⟩ := ran
    rw [unchanged_write_iff (by simp [size,found]) found]
    simp [Heap.element,found,head,isKey,assign_eq_self_iff]
  · simp only [Option.bind_eq_some_iff] at ran
    obtain ⟨index,head,ran⟩ := ran
    split_ifs at ran with bound
    obtain rfl := Option.some.inj ran
    rw [unchanged_write_iff (by simp [size,found]) found]
    simp [Heap.element,found,head,set_eq_self_iff bound]
  · simp only [Option.bind_eq_some_iff] at ran
    obtain ⟨index,head,xs,isVector,ran⟩ := ran
    split_ifs at ran with bound
    obtain rfl := Option.some.inj ran
    rw [unchanged_write_iff (by simp [size_vector isVector]) (vector_eq.mp isVector)]
    simp [Heap.element,found,head,isVector,bound.1,set_eq_self_iff bound.2]

theorem getElement_unchanged_iff {value : Word} {collection : Nat} {arguments : List Word}
    (ran : heap.getElement collection arguments = some (after,value)) :
    Unchanged heap after ↔ (heap.element collection arguments).isSome := by
  unfold getElement at ran
  split at ran
  · rename_i found
    obtain ⟨rfl,_⟩ := Prod.mk.inj (Option.some.inj ran)
    simp [found,(Extends.refl heap).unchanged]
  · rename_i key value' entries found absent
    simp only [Option.bind_eq_bind,Option.bind_eq_some_iff,Option.pure_def,Option.some.injEq,
      Prod.exists,Prod.mk.injEq] at ran
    obtain ⟨argument,head,key',isKey,middle,element,made,rfl,_⟩ := ran
    have more := initElement_extends _ made
    have none : entries.lookup key' = none := by
      simpa [Heap.element,found,head,isKey] using absent
    simp only [absent,Option.isSome_none,Bool.false_eq_true,iff_false]
    intro unchanged
    have below : collection < middle.memory.length :=
      Nat.lt_of_lt_of_le (get_lt found) more.length_le
    have same := changed (by simp [size,found]) found (get_write below) unchanged
    rw [Contents.assocArray.injEq,assign_eq_self_iff] at same
    exact absurd (same.2.2.symm.trans none) (by simp)
  · exact absurd ran (by simp)

theorem assocInsert_extends {collection : Nat} {argument : Word} {made : Heap × Nat}
    (ran : heap.assocInsert collection argument = some made) : Extends heap made.1 := by
  unfold assocInsert at ran
  split at ran
  · simp only [Option.bind_eq_bind,Option.bind_eq_some_iff,Option.pure_def,Option.some.injEq,
      Prod.exists] at ran
    obtain ⟨middle,value,got,rfl⟩ := ran
    unfold getElement at got
    split at got
    · obtain ⟨rfl,_⟩ := Prod.mk.inj (Option.some.inj got)
      exact .allocate _ _
    · simp only [Option.bind_eq_bind,Option.bind_eq_some_iff,Option.pure_def,Option.some.injEq,
        Prod.exists,Prod.mk.injEq] at got
      obtain ⟨_,_,_,_,_,_,inner,rfl,_⟩ := got
      exact ((Extends.allocate _ _).trans (initElement_extends _ inner)).write (Nat.le_refl _)
    · exact absurd got (by simp)
  · exact absurd ran (by simp)

theorem sequenceCopy_unchanged_iff {collection : Nat} {i j : Nat} {made : Heap × Nat}
    (ran : heap.sequenceCopy collection i j = some made) :
    Unchanged heap made.1 ↔ heap.resolve collection i = heap.resolve collection j := by
  simp only [sequenceCopy,Option.bind_eq_bind,Option.bind_eq_some_iff] at ran
  obtain ⟨i',isFirst,j',isLast,ran⟩ := ran
  split_ifs at ran with ordered
  simp only [Option.bind_eq_some_iff,Option.pure_def,Option.some.injEq] at ran
  obtain ⟨window,isWindow,copied,isCopied,middle,erased,rfl⟩ := ran
  simp only [erase,Option.bind_eq_bind,Option.bind_eq_some_iff] at erased
  obtain ⟨window',isWindow',xs,isVector,erased⟩ := erased
  obtain rfl := Option.some.inj (isWindow.symm.trans isWindow')
  split_ifs at erased with bound
  obtain rfl := Option.some.inj erased
  rw [isFirst,isLast,Option.some.injEq]
  have there := get_lt (vector_eq.mp isVector)
  constructor
  · intro unchanged
    have now := (Extends.allocate (heap.write window.vector (.sequence (splice xs (i' + window.first)
      (j' + window.first - (i' + window.first)) []))) (.sequence copied)).get
        (by simpa [Heap.write] using there)
    have same := changed (by simp [size_vector isVector]) (vector_eq.mp isVector)
      (now.trans (get_write there)) unchanged
    have length := congrArg List.length (Contents.sequence.inj same)
    simp only [splice,List.length_append,List.length_take,List.length_drop,List.length_nil] at length
    omega
  · rintro rfl
    have none : splice xs (i' + window.first) (i' + window.first - (i' + window.first)) [] = xs := by
      simp [splice]
    rw [none,write_self (vector_eq.mp isVector)]
    exact (Extends.allocate _ _).unchanged

end

theorem Extends.always {heap after : Heap} {P : Prop} (more : Extends heap after) (holds : P) :
    Unchanged heap after ↔ P :=
  ⟨fun _ => holds,fun _ => more.unchanged⟩

/-- A call leaves every collection as it was exactly if it is harmless. -/
theorem unchanged_iff (heap : Heap) (call : Call) {after : Heap} {result : Result}
    (ran : call.run heap = some (after,result)) : Unchanged heap after ↔ call.Harmless heap := by
  have same : ∀ {α : Type} {found : Option α} {result' : α → Result},
      (found.map fun value => (heap,result' value)) = some (after,result) → Extends heap after := by
    intro α found result' ran
    obtain ⟨_,_,made⟩ := Option.map_eq_some_iff.mp ran
    exact (Prod.mk.inj made).1 ▸ .refl heap
  cases call
  case phi | endOf =>
    obtain ⟨rfl,_⟩ := Prod.mk.inj (Option.some.inj ran)
    exact (Extends.refl heap).always trivial
  case allocateAssocArray =>
    obtain ⟨rfl,_⟩ := Prod.mk.inj (Option.some.inj ran)
    exact (Extends.allocate _ _).always trivial
  case size | assocHas | structRead => exact (same ran).always trivial
  all_goals
    obtain ⟨made,called,is⟩ := Option.map_eq_some_iff.mp ran
    obtain ⟨rfl,_⟩ := Prod.mk.inj is
  case sequenceCopy => exact sequenceCopy_unchanged_iff called
  case sequenceInsertElement => exact (sequenceInsertElement_extends called).always trivial
  case sequenceInsert => exact (sequenceInsert_extends called).always trivial
  case sequenceRemove => exact (sequenceRemove_extends called).always trivial
  case sequenceSwap => exact (sequenceSwap_extends called).always trivial
  case sequenceSwapWithin => exact (sequenceSwapWithin_extends called).always trivial
  case assocRemove => exact (assocRemove_extends called).always trivial
  case assocInsert => exact (assocInsert_extends called).always trivial
  case assocKeys => exact (assocKeys_extends called).always trivial
  case indexRead | assocRead | indexGet | assocGet => exact getElement_unchanged_iff called
  case indexWrite | assocWrite =>
    simp only [indexWrite,assocWrite,Option.bind_eq_bind,Option.bind_eq_some_iff,Option.pure_def,
      Option.some.injEq] at called
    obtain ⟨middle,set,rfl⟩ := called
    exact setElement_unchanged_iff set
  case allocateStruct => exact (allocateStruct_extends called).always trivial
  case allocateTensor => exact (allocateTensor_extends called).always trivial
  case allocateSequence => exact (allocateSequence_extends called).always trivial

/-- Three elements. -/
def Heap.three : Heap where
  memory := [some (.owned (.sequence [1,2,3]))]
  views := by
    intro handle sequence first last found
    rcases handle with _ | handle <;> simp at found

theorem unchanged_iff_three : Unchanged Heap.three (Heap.three.add (.sequence [2,3])) ↔
    (Call.sequenceRemove 0 0 1).Harmless Heap.three :=
  unchanged_iff Heap.three (.sequenceRemove 0 0 1) rfl

/-- A copy takes what it has copied away. -/
theorem sequenceCopy_erases : ∃ after result,
    (Call.sequenceCopy 0 0 1).run Heap.three = some (after,result) ∧
      ¬ Unchanged Heap.three after := by
  refine ⟨_,_,rfl,fun unchanged => ?_⟩
  have size := (unchanged 0 (by decide)).2
  exact absurd size (by decide)

end Runtime
end Memoir
