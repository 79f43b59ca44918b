import Memoir.Reaching

/-! The walk renames every operand to the nearest version at its instruction: the
visitors are one translation of the instructions, which the renaming instantiates. -/
namespace Memoir

/-- The operands that the visitors rename even where they are constants. -/
def Inst.visited (inst : Inst) : List Value :=
  match inst with
  | indexRead object _ | assocRead object _ | indexGet object _ | assocGet object _ => [object]
  | inst => if inst.isMut then inst.mutated ++ inst.read else []

namespace Construction
open Dominance

def rename (version : Name → Name) : Value → Value
  | .name x => .name (version x)
  | operand => operand

def translate (version : Name → Name) (b i : Nat) (n : Name) : Inst → List (Name × Inst)
  | .mutIndexWrite value object index =>
    [(.ssa b i 0,.indexWrite value (rename version object) index)]
  | .mutAssocWrite value object key => [(.ssa b i 0,.assocWrite value (rename version object) key)]
  | .mutSeqInsert value collection index =>
    [(.ssa b i 0,.seqInsert value (rename version collection) index)]
  | .mutSeqInsertSeq inserted collection index =>
    [(.ssa b i 0,.seqInsertSeq (rename version inserted) (rename version collection) index)]
  | .mutSeqRemove collection first last =>
    [(.ssa b i 0,.seqRemove (rename version collection) first last)]
  | .mutSeqAppend collection appended => [(.ssa b i 0,.endInst),
    (.ssa b i 1,.seqInsertSeq (rename version appended) (rename version collection)
      (.name (.ssa b i 0)))]
  | .mutSeqSwap fromCollection first last toCollection toFirst =>
    [(.ssa b i 0,.seqSwap (rename version fromCollection) first last (rename version toCollection)
        toFirst),
      (.ssa b i 1,.extractValue (.ssa b i 0) false),(.ssa b i 2,.extractValue (.ssa b i 0) true)]
  | .mutSeqSwapWithin collection first last toFirst =>
    [(.ssa b i 0,.seqSwapWithin (rename version collection) first last toFirst)]
  | .mutSeqSplit collection first last =>
    [(.ssa b i 0,.seqCopy (rename version collection) first last),
      (.ssa b i 1,.seqRemove (rename version collection) first last)]
  | .mutAssocInsert collection key => [(.ssa b i 0,.assocInsert (rename version collection) key)]
  | .mutAssocRemove collection key => [(.ssa b i 0,.assocRemove (rename version collection) key)]
  | .indexRead object index => [(n,.indexRead (rename version object) index)]
  | .assocRead object key => [(n,.assocRead (rename version object) key)]
  | .indexGet object index => [(n,.indexGet (rename version object) index)]
  | .assocGet object key => [(n,.assocGet (rename version object) key)]
  | .size collection => [(n,.size (rename version collection))]
  | .assocKeys collection => [(n,.assocKeys (rename version collection))]
  | .call callee collections scalars => [(n,.call callee (collections.map (rename version)) scalars)]
  | inst => [(n,inst)]

def translateTerminator (version : Name → Name) : Terminator → Terminator
  | .ret (some (.collection value)) => .ret (some (.collection (rename version value)))
  | terminator => terminator

open Classical in
/-- The nearest version; there is one where the variable is defined. -/
noncomputable def nearest (function : Function) (tree : Tree function)
    (inserted : List (Name × List Nat)) (p : Point) (x : Name) : Name :=
  if exists_ : ∃ d, Nearest function tree inserted x p d then exists_.choose else x

theorem lookup_set (reaching : Reaching) (key value other : Value) :
    (setReachingDefinition reaching key value).lookup other =
      if other = key then some value else reaching.lookup other := by
  by_cases same : other = key
  · simp [setReachingDefinition,same]
  · simp [setReachingDefinition,List.lookup_cons,beq_eq_false_iff_ne.mpr same,same]

@[simp] theorem lookup_set_self (reaching : Reaching) (key value : Value) :
    (setReachingDefinition reaching key value).lookup key = some value := by
  simp [lookup_set]

theorem lookup_set_ne {reaching : Reaching} {key other value : Value} (apart : other ≠ key) :
    (setReachingDefinition reaching key value).lookup other = reaching.lookup other := by
  rw [lookup_set,if_neg apart]

theorem early_next {function : Function} {tree : Tree function} {n : Name} {b i : Nat}
    (early : Early tree n (.before b (i + 1))) :
    Early tree n (.before b i) ∨ site n = some (.before b i) :=
  early.before_next rfl rfl

theorem Inst.redefines_place {inst : Inst} {operand : Value} {k k' : Nat}
    (first : (operand,k) ∈ inst.redefines) (second : (operand,k') ∈ inst.redefines) : k = k' := by
  cases inst <;> simp_all [Inst.redefines,Inst.mutated,Inst.isMut]
  split_ifs at first second with same
  · simp_all
  · simp only [List.mem_cons,Prod.mk.injEq,List.not_mem_nil,or_false] at first second
    rcases first with ⟨first,rfl⟩ | ⟨first,rfl⟩ <;> rcases second with ⟨second,rfl⟩ | ⟨second,rfl⟩
    · rfl
    · exact absurd (first.symm.trans second) same
    · exact absurd (second.symm.trans first) same
    · rfl

section
variable {program : Program} {tree : Tree program.function} {inserted : List (Name × List Nat)}

/-- Variables whose first version dominates a point. -/
def Ready (program : Program) (tree : Tree program.function) (x : Name) (p : Point) : Prop :=
  x ∈ memoirNames program.function ∧ dominates tree (firstVersion program.function x) p = true

theorem ready_of_dominates {x : Name} {p : Point} (variable_ : x ∈ memoirNames program.function)
    (above : dominates tree x p = true) : Ready program tree x p := by
  refine ⟨variable_,?_⟩
  cases block : x.block? with
  | none => exact dominates_argument tree ((firstVersion_block _ _).trans block) p
  | some s =>
    obtain ⟨q,at_,_,_⟩ := exists_site block
    have position := (site_block ((firstVersion_site program.function x).trans at_)).2.trans
      (site_block at_).2.symm
    rw [dominates_iff tree ((firstVersion_block _ _).trans block),position]
    exact (dominates_iff tree block p).mp above

theorem operand_variable {b i : Nat} {inst : Inst} {x : Name}
    (at_ : program.function.instruction? (.inst b i) = some inst)
    (member : .name x ∈ inst.operands) : x ∈ memoirNames program.function := by
  obtain ⟨block,n,found,entry⟩ := Function.instruction?_eq_some at_
  have inBlocks := List.mem_of_getElem? found
  have inBody := List.mem_of_getElem? entry
  refine mem_memoirNames.mpr ⟨(program.collections block inBlocks).1 n inst inBody x member,?_⟩
  refine (program.ssa.defined block inBlocks).1 n inst inBody x ?_
  simp only [Inst.operands,List.mem_append,Option.mem_toList,Option.bind_eq_some_iff] at member
  simp only [Inst.names,List.mem_append,List.mem_filterMap]
  rcases member with member | ⟨element,written,isCollection⟩
  · exact .inl (.inl (.inr ⟨_,member,rfl⟩))
  · refine .inl (.inr ⟨element,by simpa using written,?_⟩)
    cases element with
    | scalar s => exact absurd isCollection (by simp [Element.collection?])
    | collection v =>
      obtain rfl := Option.some.inj isCollection
      rfl

theorem ready_operand {b i : Nat} {inst : Inst} {x : Name}
    (at_ : program.function.instruction? (.inst b i) = some inst)
    (member : .name x ∈ inst.operands) (reachable : program.function.graph.Reachable b) :
    Ready program tree x (.before b i) := by
  obtain ⟨block,n,found,entry⟩ := Function.instruction?_eq_some at_
  have usable := program.ssa.operands b block found i n inst entry _ member
  exact ready_of_dominates (operand_variable at_ member)
    (program.available_dominates tree (usable.2 x rfl reachable))

theorem Program.not_isNew_variable {x : Name} (variable_ : x ∈ memoirNames program.function) :
    ¬ Name.IsNew x :=
  Program.not_isNew program (mem_memoirNames.mp variable_).2

def AllChained (program : Program) (tree : Tree program.function)
    (inserted : List (Name × List Nat)) (reaching : Reaching) (p : Point) : Prop :=
  ∀ x ∈ memoirNames program.function, Chained tree inserted reaching x p

theorem nearest_spec {x : Name} {p : Point}
    (exists_ : ∃ d, Nearest program.function tree inserted x p d) :
    Nearest program.function tree inserted x p (nearest program.function tree inserted p x) := by
  rw [nearest,dif_pos exists_]
  exact exists_.choose_spec

theorem Nearest.unique {x d d' : Name} {p : Point}
    (reachable : ∀ v q, Version program.function inserted x v → site v = some q →
      program.function.graph.Reachable q.block)
    (first : Nearest program.function tree inserted x p d)
    (second : Nearest program.function tree inserted x p d') : d = d' := by
  rcases first.2.2 d' second.1 second.2.1 with same | ⟨q,at_,above⟩
  · exact same.symm
  · rcases second.2.2 d first.1 first.2.1 with same | ⟨q',at',above'⟩
    · exact same
    · exact absurd (dominates_trans tree at' above' above (reachable d q first.1 at_))
        (not_dominates_site tree at_)

variable (placed : Placed program inserted) {b : Nat}
  (reachable : program.function.graph.Reachable b)
include placed reachable

theorem update_chained {reaching : Reaching} {p : Point} (here : p.block = b) {x : Name}
    (ready : Ready program tree x p) (chained : Chained tree inserted reaching x p) :
    updateReachingDefinition tree reaching (.name x) p =
        some (setReachingDefinition reaching (.name x)
          (.name (nearest program.function tree inserted p x)),
            .name (nearest program.function tree inserted p x)) ∧
      Nearest program.function tree inserted x p (nearest program.function tree inserted p x) ∧
      Chained tree inserted (setReachingDefinition reaching (.name x)
          (.name (nearest program.function tree inserted p x))) x p := by
  subst here
  obtain ⟨d,found,isNearest⟩ := update_nearest ready.1 reachable chained ready.2
  have same : d = nearest program.function tree inserted p x :=
    isNearest.unique (fun v q version at_ => placed.site_reachable ready.1 version at_)
      (nearest_spec ⟨d,isNearest⟩)
  rw [same] at isNearest found
  refine ⟨found,isNearest,chained.update placed ready.1 reachable isNearest (lookup_set_self _ _ _)
    fun v new => lookup_set_ne ?_⟩
  rintro ⟨⟩
  exact Program.not_isNew_variable ready.1 new

omit placed reachable in
theorem chained_set {reaching : Reaching} {p : Point} {x y : Name} {value : Value}
    (variable_ : x ∈ memoirNames program.function) (apart : y ≠ x)
    (chained : Chained tree inserted reaching y p) :
    Chained tree inserted (setReachingDefinition reaching (.name x) value) y p := by
  refine chained.frame (lookup_set_ne ?_) fun v new _ => lookup_set_ne ?_
  · exact fun same => apart (Value.name.inj same)
  · rintro ⟨⟩
    exact Program.not_isNew_variable variable_ new

theorem update_all {reaching : Reaching} {p : Point} (here : p.block = b) {x : Name}
    (ready : Ready program tree x p) (all : AllChained program tree inserted reaching p) :
    updateReachingDefinition tree reaching (.name x) p =
        some (setReachingDefinition reaching (.name x)
          (.name (nearest program.function tree inserted p x)),
            .name (nearest program.function tree inserted p x)) ∧
      AllChained program tree inserted (setReachingDefinition reaching (.name x)
          (.name (nearest program.function tree inserted p x))) p := by
  obtain ⟨found,_,chained⟩ := update_chained placed reachable here ready (all x ready.1)
  refine ⟨found,fun y variable_ => ?_⟩
  by_cases same : y = x
  · exact same ▸ chained
  · exact chained_set ready.1 same (all y variable_)

theorem renameOperands_spec {p : Point} (here : p.block = b) (operands : List Value) :
    ∀ reaching, AllChained program tree inserted reaching p →
      (∀ x, .name x ∈ operands → Ready program tree x p) →
      ∃ after, renameOperands tree p reaching operands =
          some (after,operands.map (rename (nearest program.function tree inserted p))) ∧
        AllChained program tree inserted after p := by
  induction operands with
  | nil => exact fun reaching all _ => ⟨reaching,rfl,all⟩
  | cons operand rest ih =>
    intro reaching all ready
    have ready' : ∀ x, .name x ∈ rest → Ready program tree x p :=
      fun x member => ready x (List.mem_cons_of_mem _ member)
    cases operand with
    | name x =>
      obtain ⟨found,all⟩ := update_all placed reachable here (ready x List.mem_cons_self) all
      obtain ⟨after,renamed,all⟩ := ih _ all ready'
      exact ⟨after,by simp [renameOperands,found,renamed,rename],all⟩
    | constant k =>
      obtain ⟨after,renamed,all⟩ := ih _ all ready'
      exact ⟨after,by simp [renameOperands,renamed,rename],all⟩
    | null =>
      obtain ⟨after,renamed,all⟩ := ih _ all ready'
      exact ⟨after,by simp [renameOperands,renamed,rename],all⟩

/-- From one instruction to the next. -/
theorem chained_next {i : Nat} {inst : Inst} {reaching after : Reaching}
    (at_ : program.function.instruction? (.inst b i) = some inst)
    (all : AllChained program tree inserted reaching (.before b i))
    (redefined : ∀ x k, (.name x,k) ∈ inst.redefines →
      after.lookup (.name x) = some (.name (.ssa b i k)) ∧
      after.lookup (.name (.ssa b i k)) =
        some (.name (nearest program.function tree inserted (.before b i) x)))
    (result : .inst b i ∈ memoirNames program.function →
      after.lookup (.name (.inst b i)) = some (.name (firstVersion program.function (.inst b i))))
    (same : ∀ m, m ≠ .inst b i → (∀ k, m ≠ .ssa b i k) → (∀ k, (.name m,k) ∉ inst.redefines) →
      after.lookup (.name m) = reaching.lookup (.name m)) :
    AllChained program tree inserted after (.before b (i + 1)) := by
  intro x variable_
  have old := Program.not_isNew_variable variable_
  have reachable' : program.function.graph.Reachable (Point.before b i).block := reachable
  -- what is defined here is the result of the instruction or a new version of an operand
  have here : ∀ w, Version program.function inserted x w → site w = some (.before b i) →
      x = .inst b i ∨ ∃ k, w = .ssa b i k ∧ (.name x,k) ∈ inst.redefines := by
    intro w version at'
    cases version with
    | first =>
      rw [firstVersion_site] at at'
      cases x <;> simp_all [site,Name.IsNew]
    | @redefined b' i' k inst' found redefines =>
      simp only [site,Option.some.injEq,Point.before.injEq] at at'
      obtain ⟨rfl,rfl⟩ := at'
      obtain rfl := Option.some.inj (found.symm.trans at_)
      exact .inr ⟨k,rfl,redefines⟩
    | inserted member => exact absurd at' (by simp [site])
  by_cases self : x = .inst b i
  · subst self
    refine Chained.define placed variable_ rfl (result variable_) ?_ fun w _ => early_next
    exact fun _ at' => .inr ⟨Option.some.inj at'.symm,Nat.lt_succ_self _⟩
  · by_cases is : ∃ k, (.name x,k) ∈ inst.redefines
    · obtain ⟨k,redefines⟩ := is
      have operand := Inst.mutated_operands (Inst.redefines_mutated redefines)
      obtain ⟨_,nearest,_⟩ := update_chained placed reachable rfl
        (ready_operand at_ operand reachable) (all x variable_)
      obtain ⟨found,link⟩ := redefined x k redefines
      refine (all x variable_).redefine placed variable_ reachable' (.redefined at_ redefines) rfl
        nearest found link ?_ (.next tree b i) ?_ ?_
      · intro w new version apart
        refine same w ?_ ?_ ?_
        · rintro rfl
          exact new
        · rintro k' rfl
          rcases here _ version rfl with this | ⟨k'',this,redefines'⟩
          · exact self this
          · obtain ⟨_,_,rfl⟩ := Name.ssa.inj this
            exact apart (by rw [Inst.redefines_place redefines redefines'])
        · intro k' redefines'
          have operand' := Inst.mutated_operands (Inst.redefines_mutated redefines')
          exact Program.not_isNew_variable (operand_variable at_ operand') new
      · exact fun _ at' => .inr ⟨Option.some.inj at'.symm,Nat.lt_succ_self _⟩
      · intro w version early
        refine (early_next early).imp id fun at' => ?_
        rcases here w version at' with this | ⟨k',rfl,redefines'⟩
        · exact absurd this self
        · rw [Inst.redefines_place redefines redefines']
    · have none : ∀ k, (.name x,k) ∉ inst.redefines := fun k redefines => is ⟨k,redefines⟩
      refine ((all x variable_).frame (same x self ?_ none) ?_).advance (.next tree b i) ?_
      · rintro k rfl
        exact old trivial
      · intro w new version
        refine same w ?_ ?_ ?_
        · rintro rfl
          exact new
        · rintro k rfl
          rcases here _ version rfl with this | ⟨k',this,redefines⟩
          · exact self this
          · exact none k' redefines
        · intro k redefines
          have operand := Inst.mutated_operands (Inst.redefines_mutated redefines)
          exact Program.not_isNew_variable (operand_variable at_ operand) new
      · intro w version early
        refine (early_next early).resolve_right fun at' => ?_
        rcases here w version at' with this | ⟨k,_,redefines⟩
        · exact self this
        · exact none k redefines

end

end Construction
end Memoir
