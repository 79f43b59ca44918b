import Memoir.AssocArray

/-! The elements that new objects start with: trees of objects that no other object shares. -/
namespace Memoir
namespace Runtime
open Heap

inductive Tree
  | word (value : Word)
  | struct (fields : List Tree)
  | tensor (lengthOfDimensions : List Word) (elements : List Tree)
  | assocArray (keys : List Word) (values : List Tree)
  | sequence (elements : List Tree)

def Ty.isWord : Ty → Bool
  | .integerTy _ _ | .floatTy | .doubleTy | .pointerTy | .referenceTy => true
  | _ => false

mutual

inductive Shape (heap : Heap) : Ty → Word → Tree → List Nat → Prop
  | word {ty : Ty} {value : Word} (isWord : ty.isWord = true) : Shape heap ty value (.word value) []
  | struct {fields : List Ty} {handle : Nat} {values : List Word} {trees : List Tree}
      {objects : List (List Nat)} (found : heap.get handle = some (.owned (.struct values)))
      (inner : Shapes heap fields values trees objects) :
      Shape heap (.structTy fields) (address handle) (.struct trees) (handle :: objects.flatten)
  | tensor {element : Ty} {lengths : List Word} {handle : Nat} {values : List Word} {trees : List Tree}
      {objects : List (List Nat)} (found : heap.get handle = some (.owned (.tensor lengths values)))
      (inner : Shapes heap (List.replicate values.length element) values trees objects) :
      Shape heap (.tensorTy element (some lengths)) (address handle) (.tensor lengths trees)
        (handle :: objects.flatten)
  | assocArray {key value : Ty} {handle : Nat} {entries : List (Word × Word)} {trees : List Tree}
      {objects : List (List Nat)} (found : heap.get handle = some (.owned (.assocArray key value entries)))
      (inner : Shapes heap (List.replicate entries.length value) (entries.map Prod.snd) trees objects) :
      Shape heap (.assocArrayTy key value) (address handle) (.assocArray (entries.map Prod.fst) trees)
        (handle :: objects.flatten)
  | sequence {element : Ty} {handle : Nat} {values : List Word} {trees : List Tree}
      {objects : List (List Nat)} (found : heap.get handle = some (.owned (.sequence values)))
      (inner : Shapes heap (List.replicate values.length element) values trees objects) :
      Shape heap (.sequenceTy element) (address handle) (.sequence trees) (handle :: objects.flatten)

inductive Shapes (heap : Heap) : List Ty → List Word → List Tree → List (List Nat) → Prop
  | nil : Shapes heap [] [] [] []
  | cons {ty : Ty} {tys : List Ty} {value : Word} {values : List Word} {tree : Tree} {trees : List Tree}
      {own : List Nat} {objects : List (List Nat)} (first : Shape heap ty value tree own)
      (rest : Shapes heap tys values trees objects) :
      Shapes heap (ty :: tys) (value :: values) (tree :: trees) (own :: objects)

end

mutual

/-- A tree depends on its own objects. -/
theorem Shape.frame {heap after : Heap} {ty : Ty} {value : Word} {tree : Tree} {own : List Nat}
    (shape : Shape heap ty value tree own)
    (same : ∀ handle ∈ own,after.get handle = heap.get handle) : Shape after ty value tree own := by
  cases shape with
  | word isWord => exact .word isWord
  | struct found inner =>
    exact .struct ((same _ List.mem_cons_self).trans found)
      (inner.frame fun handle member => same handle (List.mem_cons_of_mem _ member))
  | tensor found inner =>
    exact .tensor ((same _ List.mem_cons_self).trans found)
      (inner.frame fun handle member => same handle (List.mem_cons_of_mem _ member))
  | assocArray found inner =>
    exact .assocArray ((same _ List.mem_cons_self).trans found)
      (inner.frame fun handle member => same handle (List.mem_cons_of_mem _ member))
  | sequence found inner =>
    exact .sequence ((same _ List.mem_cons_self).trans found)
      (inner.frame fun handle member => same handle (List.mem_cons_of_mem _ member))

theorem Shapes.frame {heap after : Heap} {tys : List Ty} {values : List Word} {trees : List Tree}
    {objects : List (List Nat)} (shapes : Shapes heap tys values trees objects)
    (same : ∀ handle ∈ objects.flatten,after.get handle = heap.get handle) :
    Shapes after tys values trees objects := by
  cases shapes with
  | nil => exact .nil
  | cons first rest =>
    rw [List.flatten_cons] at same
    exact .cons (first.frame fun handle member => same handle (List.mem_append_left _ member))
      (rest.frame fun handle member => same handle (List.mem_append_right _ member))

end

section
variable {before middle heap after : Heap} {ty : Ty} {tys : List Ty} {value : Word} {values : List Word}
  {tree : Tree} {trees : List Tree} {own : List Nat} {objects : List (List Nat)} {count : Nat}

theorem Shapes.length (shapes : Shapes heap tys values trees objects) : values.length = tys.length := by
  induction values generalizing tys trees objects with
  | nil =>
    cases shapes
    rfl
  | cons value values ih =>
    cases shapes with
    | cons first rest => rw [List.length_cons,List.length_cons,ih rest]

theorem Shapes.get (shapes : Shapes heap tys values trees objects) {i : Nat} (found : tys[i]? = some ty)
    (found' : values[i]? = some value) (found'' : trees[i]? = some tree) (at_ : objects[i]? = some own) :
    Shape heap ty value tree own := by
  induction i generalizing tys values trees objects with
  | zero =>
    cases shapes with
    | nil => exact nomatch found
    | cons first rest =>
      obtain rfl := Option.some.inj found
      obtain rfl := Option.some.inj found'
      obtain rfl := Option.some.inj found''
      obtain rfl := Option.some.inj at_
      exact first
  | succ i ih =>
    cases shapes with
    | nil => exact nomatch found
    | cons first rest => exact ih rest found found' found'' at_

/-- Different objects, none of which was there before. -/
structure Fresh (before after : Heap) (own : List Nat) : Prop where
  distinct : own.Nodup
  new : ∀ handle ∈ own,before.memory.length ≤ handle
  there : ∀ handle ∈ own,handle < after.memory.length

theorem Fresh.nil (before after : Heap) : Fresh before after [] :=
  ⟨List.nodup_nil,fun _ none => absurd none List.not_mem_nil,fun _ none => absurd none List.not_mem_nil⟩

theorem Fresh.append {own' : List Nat} (fresh : Fresh before middle own) (fresh' : Fresh middle after own')
    (more : Extends before middle) (more' : Extends middle after) : Fresh before after (own ++ own') := by
  have below := more.length_le
  have below' := more'.length_le
  refine ⟨List.nodup_append.mpr ⟨fresh.distinct,fresh'.distinct,?_⟩,?_,?_⟩
  · rintro handle member _ member' rfl
    have := fresh.there handle member
    have := fresh'.new handle member'
    omega
  · intro handle member
    rcases List.mem_append.mp member with member | member
    · exact fresh.new handle member
    · exact below.trans (fresh'.new handle member)
  · intro handle member
    rcases List.mem_append.mp member with member | member
    · exact (fresh.there handle member).trans_le below'
    · exact fresh'.there handle member

theorem Fresh.add (fresh : Fresh before heap own) (more : Extends before heap) (contents : Contents) :
    Fresh before (heap.add contents) (heap.memory.length :: own) := by
  have larger : (heap.add contents).memory.length = heap.memory.length + 1 := List.length_append
  refine ⟨List.nodup_cons.mpr ⟨fun member => Nat.lt_irrefl _ (fresh.there _ member),fresh.distinct⟩,?_,?_⟩
  · intro handle member
    rcases List.mem_cons.mp member with rfl | member
    · exact more.length_le
    · exact fresh.new handle member
  · intro handle member
    rcases List.mem_cons.mp member with rfl | member
    · omega
    · have := fresh.there handle member
      omega

theorem get_add (heap : Heap) (contents : Contents) :
    (heap.add contents).get heap.memory.length = some (.owned contents) := by
  simp [Heap.get,Heap.add]

theorem Shapes.later (shapes : Shapes heap tys values trees objects)
    (there : ∀ handle ∈ objects.flatten,handle < heap.memory.length) (more : Extends heap after) :
    Shapes after tys values trees objects :=
  shapes.frame fun handle member => more.get (there handle member)

theorem Shape.cons_fresh (first : Shape middle ty value tree own) (fresh : Fresh before middle own)
    (rest : Shapes after tys values trees objects) (fresh' : Fresh middle after objects.flatten)
    (more : Extends before middle) (more' : Extends middle after) :
    Shapes after (ty :: tys) (value :: values) (tree :: trees) (own :: objects) ∧
      Fresh before after (own :: objects).flatten :=
  ⟨.cons (first.frame fun handle member => more'.get (fresh.there handle member)) rest,
    fresh.append fresh' more more'⟩

theorem repeated_shapes {make : Heap → Option (Heap × Word)}
    (each : ∀ before after value,make before = some (after,value) →
      Extends before after ∧ ∃ own,Shape after ty value tree own ∧ Fresh before after own)
    (made : repeated make count before = some (after,values)) :
    ∃ objects,Shapes after (List.replicate count ty) values (List.replicate count tree) objects ∧
      Fresh before after objects.flatten := by
  induction count generalizing before values with
  | zero =>
    obtain ⟨rfl,rfl⟩ := Prod.mk.inj (Option.some.inj made)
    exact ⟨[],.nil,.nil _ _⟩
  | succ count ih =>
    simp only [repeated,Option.bind_eq_bind,Option.bind_eq_some_iff,Option.pure_def,Option.some.injEq,
      Prod.mk.injEq,Prod.exists] at made
    obtain ⟨middle,value,first,last,values',rest,rfl,rfl⟩ := made
    obtain ⟨more,own,shape,fresh⟩ := each _ _ _ first
    obtain ⟨objects,shapes,fresh'⟩ := ih rest
    have more' : Extends middle last :=
      repeated_extends (fun before after value made => (each before after value made).1) rest
    exact ⟨_,shape.cons_fresh fresh shapes fresh' more more'⟩

end

mutual

def Ty.initial : Ty → Tree
  | .structTy fields => .struct (Ty.initials fields)
  | .tensorTy element (some lengths) =>
    .tensor lengths (List.replicate ((flattenedLength 0 1 lengths).getD 0).toNat element.initial)
  | .assocArrayTy _ _ => .assocArray [] []
  | .sequenceTy _ => .sequence []
  | _ => .word 0

def Ty.initials : List Ty → List Tree
  | [] => []
  | field :: fields => field.initial :: Ty.initials fields

end

mutual

theorem initElement_shape (ty : Ty) {before after : Heap} {value : Word}
    (made : initElement ty before = some (after,value)) :
    ∃ own,Shape after ty value ty.initial own ∧ Fresh before after own := by
  cases ty with
  | structTy fields =>
    simp only [initElement,newStruct,Option.bind_eq_bind,Option.bind_eq_some_iff,Option.pure_def,
      Option.some.injEq,Prod.mk.injEq,Prod.exists] at made
    obtain ⟨heap,values,inner,rfl,rfl⟩ := made
    obtain ⟨objects,shapes,fresh⟩ := initFields_shapes fields inner
    have shapes' := shapes.later fresh.there (.allocate heap (.struct values))
    exact ⟨_,.struct (get_add heap _) shapes',fresh.add (initFields_extends fields inner) _⟩
  | tensorTy element lengthOfDimensions =>
    simp only [initElement,newTensor,Option.bind_eq_bind,Option.bind_eq_some_iff,Option.pure_def] at made
    obtain ⟨lengths,static,length,asked,made⟩ := made
    obtain ⟨rfl,_⟩ := Option.filter_eq_some_iff.mp static
    split_ifs at made
    · exact absurd made (by simp)
    simp only [Option.bind_eq_some_iff,Option.some.injEq,Prod.mk.injEq] at made
    obtain ⟨⟨heap,values⟩,inner,rfl,rfl⟩ := made
    have each : ∀ before after value,initElement element before = some (after,value) →
        Extends before after ∧ ∃ own,Shape after element value element.initial own ∧
          Fresh before after own :=
      fun _ _ _ made => ⟨initElement_extends element made,initElement_shape element made⟩
    obtain ⟨objects,shapes,fresh⟩ := repeated_shapes each (initElements_repeated inner)
    have more : Extends before heap := initElements_extends inner
    have shapes' := shapes.later fresh.there (.allocate heap (.tensor lengths values))
    have count : values.length = length.toNat := by rw [shapes.length,List.length_replicate]
    rw [← count] at shapes'
    refine ⟨_,?_,fresh.add more _⟩
    rw [Ty.initial,asked,Option.getD_some,← count]
    exact .tensor (get_add heap _) shapes'
  | sequenceTy element =>
    simp only [initElement,newSequence,Option.bind_eq_bind,Option.bind_eq_some_iff,Option.pure_def,
      Option.some.injEq,Prod.mk.injEq,Prod.exists] at made
    obtain ⟨heap,values,inner,rfl,rfl⟩ := made
    obtain ⟨rfl,rfl⟩ := Prod.mk.inj (Option.some.inj (initElements_repeated inner))
    exact ⟨_,.sequence (get_add before _) .nil,(Fresh.nil before before).add (.refl before) _⟩
  | assocArrayTy key value =>
    simp only [initElement,Option.pure_def,Option.some.injEq,Prod.mk.injEq] at made
    obtain ⟨rfl,rfl⟩ := made
    exact ⟨_,.assocArray (get_add before _) .nil,(Fresh.nil before before).add (.refl before) _⟩
  | noneTy => exact absurd made (by simp [initElement])
  | _ =>
    simp only [initElement,Option.some.injEq,Prod.mk.injEq] at made
    obtain ⟨rfl,rfl⟩ := made
    exact ⟨[],.word rfl,.nil _ _⟩

theorem initFields_shapes (fields : List Ty) {before after : Heap} {values : List Word}
    (made : initFields fields before = some (after,values)) :
    ∃ objects,Shapes after fields values (Ty.initials fields) objects ∧
      Fresh before after objects.flatten := by
  cases fields with
  | nil =>
    obtain ⟨rfl,rfl⟩ := Prod.mk.inj (Option.some.inj made)
    exact ⟨[],.nil,.nil _ _⟩
  | cons field fields =>
    simp only [initFields,Option.bind_eq_bind,Option.bind_eq_some_iff,Option.pure_def,
      Option.some.injEq,Prod.mk.injEq,Prod.exists] at made
    obtain ⟨middle,value,first,last,values',rest,rfl,rfl⟩ := made
    obtain ⟨own,shape,fresh⟩ := initElement_shape field first
    obtain ⟨objects,shapes,fresh'⟩ := initFields_shapes fields rest
    exact ⟨_,shape.cons_fresh fresh shapes fresh' (initElement_extends field first)
      (initFields_extends fields rest)⟩

end

/-- The elements that are made: each has the tree of a single one, all their objects are new and
different, and a write into one of them is not seen from another. -/
structure Initialized (before after : Heap) (ty : Ty) (values : List Word) (tree : Tree)
    (objects : List (List Nat)) : Prop where
  shapes : Shapes after (List.replicate values.length ty) values (List.replicate values.length tree)
    objects
  single : ∀ heap heap' value,initElement ty heap = some (heap',value) →
    ∃ own,Shape heap' ty value tree own
  kept : Extends before after
  fresh : Fresh before after objects.flatten
  apart : ∀ (i j : Nat) (own : List Nat) (value : Word) (own' : List Nat),i ≠ j →
    objects[i]? = some own → values[j]? = some value → objects[j]? = some own' →
      ∀ handle ∈ own,∀ contents,Shape (after.write handle contents) ty value tree own'

def Initializes (before : Heap) (ty : Ty) (count : Nat) : Prop :=
  ∃ after values,initElements ty count before = some (after,values) ∧ values.length = count ∧
    ∃ tree objects,Initialized before after ty values tree objects

section
variable {before after : Heap} {ty : Ty} {count : Nat} {values : List Word}

theorem not_mem_other {objects : List (List Nat)} (distinct : objects.flatten.Nodup) {i j : Nat}
    {own own' : List Nat} (apart : i ≠ j) (found : objects[i]? = some own)
    (found' : objects[j]? = some own') {handle : Nat} (member : handle ∈ own) : handle ∉ own' := by
  intro member'
  have pairs := List.pairwise_iff_getElem.mp (List.nodup_flatten.mp distinct).2
  obtain ⟨below,rfl⟩ := List.getElem?_eq_some_iff.mp found
  obtain ⟨below',rfl⟩ := List.getElem?_eq_some_iff.mp found'
  rcases Nat.lt_or_gt_of_ne apart with before | behind
  · exact pairs i j below below' before member member'
  · exact pairs j i below' below behind member' member

theorem initElements_initialized (made : initElements ty count before = some (after,values)) :
    values.length = count ∧ ∃ objects,Initialized before after ty values ty.initial objects := by
  have kept := initElements_extends made
  obtain ⟨objects,shapes,fresh⟩ := repeated_shapes
    (fun _ _ _ made => ⟨initElement_extends ty made,initElement_shape ty made⟩)
    (initElements_repeated made)
  have length : values.length = count := by rw [shapes.length,List.length_replicate]
  refine ⟨length,objects,?_,?_,kept,fresh,?_⟩
  · rw [length]
    exact shapes
  · intro heap heap' value made
    obtain ⟨own,shape,_⟩ := initElement_shape ty made
    exact ⟨own,shape⟩
  · intro i j own value own' apart found found' found'' handle member contents
    have below : j < count := by
      rw [← length]
      exact (List.getElem?_eq_some_iff.mp found').1
    have shape : Shape after ty value ty.initial own' :=
      shapes.get (List.getElem?_replicate_of_lt below) found' (List.getElem?_replicate_of_lt below) found''
    apply shape.frame
    intro other member'
    apply get_write_ne
    rintro rfl
    exact not_mem_other fresh.distinct apart found found'' member member'

theorem initElements_isSome (ty : Ty) (count : Nat) (before : Heap) :
    (initElements ty count before).isSome = true ↔
      count < 2 ^ 31 ∧ ty.inList = true ∧ (count = 0 ∨ ty.makeable = true) := by
  by_cases small : count < 2 ^ 31
  · rw [initElements_isSome_of (initElement_isSome ty) small,Bool.and_eq_true,Bool.or_eq_true,
      beq_iff_eq,and_iff_right small]
  · rw [initElements_eq]
    unfold pushed
    rw [if_neg small,ite_self]
    exact iff_of_false Bool.false_ne_true fun holds => small holds.1

theorem initializes_iff (before : Heap) (ty : Ty) (count : Nat) : Initializes before ty count ↔
    count < 2 ^ 31 ∧ ty.inList = true ∧ (count = 0 ∨ ty.makeable = true) := by
  rw [← initElements_isSome ty count before,Option.isSome_iff_exists]
  constructor
  · rintro ⟨after,values,made,_⟩
    exact ⟨_,made⟩
  · rintro ⟨⟨after,values⟩,made⟩
    obtain ⟨length,objects,initialized⟩ := initElements_initialized made
    exact ⟨after,values,made,length,ty.initial,objects,initialized⟩

end

/-- One associative array can be made, but no list of them, even of none. -/
theorem assocArrays_not_initialized :
    (initElement (.assocArrayTy .referenceTy .referenceTy) Heap.three).isSome = true ∧
      ¬Initializes Heap.three (.assocArrayTy .referenceTy .referenceTy) 1 := by
  refine ⟨rfl,?_⟩
  rintro ⟨after,values,made,_⟩
  exact nomatch made

end Runtime
end Memoir
