import Memoir.Versions

/-! The chains of reaching definitions lead to the nearest version of a variable. -/
namespace Memoir
open Dominance

theorem Function.instruction?_eq_some {function : Function} {b i : Nat} {inst : Inst}
    (at_ : function.instruction? (.inst b i) = some inst) :
    ∃ block n, function.blocks[b]? = some block ∧ block.body[i]? = some (n,inst) := by
  simp only [instruction?,Option.bind_eq_some_iff,Option.map_eq_some_iff] at at_
  obtain ⟨block,found,⟨n,_⟩,entry,rfl⟩ := at_
  exact ⟨block,n,found,entry⟩

theorem Function.instruction?_eq {function : Function} {b i : Nat} {block : BasicBlock} {n : Name}
    {inst : Inst} (found : function.blocks[b]? = some block)
    (entry : block.body[i]? = some (n,inst)) :
    function.instruction? (.inst b i) = some inst := by
  simp [instruction?,found,entry]

namespace Program

variable (program : Program) {b : Nat} {block : BasicBlock}

theorem name_at (found : program.function.blocks[b]? = some block) {i : Nat} {n : Name}
    {inst : Inst} (entry : block.body[i]? = some (n,inst)) : n = .inst b i := by
  have named := congrArg (·[i]?) (program.body_named b block found)
  simp only [List.getElem?_map,entry,Option.map_some] at named
  obtain ⟨bound,_⟩ := List.getElem?_eq_some_iff.mp entry
  simpa [bound] using named

theorem phi_at (found : program.function.blocks[b]? = some block) {i : Nat} {n : Name} {phi : Phi}
    (entry : block.phis[i]? = some (n,phi)) : n = .phi b i := by
  have named := congrArg (·[i]?) (program.phis_named b block found)
  simp only [List.getElem?_map,entry,Option.map_some] at named
  obtain ⟨bound,_⟩ := List.getElem?_eq_some_iff.mp entry
  simpa [bound] using named

theorem mem_phis (found : program.function.blocks[b]? = some block) {n : Name}
    (member : n ∈ block.phis.map Prod.fst) : ∃ i, n = .phi b i := by
  rw [program.phis_named b block found] at member
  obtain ⟨i,_,rfl⟩ := List.mem_map.mp member
  exact ⟨i,rfl⟩

theorem mem_body (found : program.function.blocks[b]? = some block) {n : Name}
    (member : n ∈ block.body.map Prod.fst) : ∃ i < block.body.length, n = .inst b i := by
  rw [program.body_named b block found] at member
  obtain ⟨i,bound,rfl⟩ := List.mem_map.mp member
  exact ⟨i,List.mem_range.mp bound,rfl⟩

theorem mem_body_take (found : program.function.blocks[b]? = some block) {n : Name} {k : Nat}
    (member : n ∈ (block.body.take k).map Prod.fst) : ∃ i < k, n = .inst b i := by
  rw [List.map_take,program.body_named b block found] at member
  obtain ⟨i,bound,rfl⟩ := List.mem_iff_getElem.mp member
  simp only [List.length_take] at bound
  refine ⟨i,by omega,?_⟩
  simp

theorem names_block (found : program.function.blocks[b]? = some block) {n : Name}
    (member : n ∈ block.names) : n.block? = some b := by
  rcases List.mem_append.mp member with member | member
  · obtain ⟨i,rfl⟩ := program.mem_phis found member
    rfl
  · obtain ⟨i,_,rfl⟩ := program.mem_body found member
    rfl

theorem available_dominates (tree : Construction.Tree program.function) {n : Name} {b k : Nat}
    (available : program.function.Available n b k) :
    Construction.dominates tree n (.before b k) = true := by
  rcases available with ⟨i,_,rfl⟩ | ⟨block,found,member⟩ | ⟨s,block,found,member,above⟩
  · rfl
  · rcases List.mem_append.mp member with member | member
    · obtain ⟨i,rfl⟩ := program.mem_phis found member
      exact (Construction.dominates_iff tree rfl _).mpr (.inl ⟨rfl,Nat.succ_pos _⟩)
    · obtain ⟨i,bound,rfl⟩ := program.mem_body_take found member
      exact (Construction.dominates_iff tree rfl _).mpr (.inl ⟨rfl,Nat.succ_lt_succ bound⟩)
  · exact (Construction.dominates_iff tree (program.names_block found member) _).mpr
      (.inr ⟨above.2,above.1⟩)

end Program

namespace Construction

theorem Inst.redefines_defines {inst : Inst} {x : Name} {k : Nat}
    (redefines : (.name x,k) ∈ inst.redefines) : defines x inst = true := by
  cases inst <;>
    simp_all [Inst.redefines,defines,Inst.operands,Inst.mutated,Inst.isMut,Inst.read,Inst.element]
  split_ifs at redefines with same
  · simp_all
  · simp only [List.mem_cons,Prod.mk.injEq,List.not_mem_nil,or_false] at redefines
    exact redefines.imp And.left And.left

theorem Inst.redefines_mutated {inst : Inst} {operand : Value} {k : Nat}
    (redefines : (operand,k) ∈ inst.redefines) : operand ∈ inst.mutated := by
  cases inst <;> simp_all [Inst.redefines,Inst.mutated,Inst.isMut]
  split_ifs at redefines <;> simp_all
  tauto

theorem Inst.mutated_operands {inst : Inst} {operand : Value} (member : operand ∈ inst.mutated) :
    operand ∈ inst.operands := by
  simp [Inst.operands,member]

@[simp] theorem firstVersion_block (function : Function) (x : Name) :
    (firstVersion function x).block? = x.block? := by
  unfold firstVersion
  split
  · split <;> rfl
  · rfl

@[simp] theorem firstVersion_site (function : Function) (x : Name) : site (firstVersion function x) = site x := by
  unfold firstVersion
  split
  · split <;> rfl
  · rfl

def Name.IsNew : Name → Prop
  | .ssa _ _ _ | .insertedPhi _ _ => True
  | _ => False

theorem Version.isNew {function : Function} {inserted : List (Name × List Nat)} {x v : Name}
    (version : Version function inserted x v) (later : v ≠ firstVersion function x) : Name.IsNew v := by
  cases version with
  | first => exact absurd rfl later
  | redefined at_ redefines => trivial
  | inserted member => trivial

theorem mem_memoirNames {function : Function} {x : Name} : x ∈ memoirNames function ↔
    function.valueIsCollectionType x = true ∧ function.Defined x := by
  simp only [memoirNames,Function.Defined,BasicBlock.names,List.mem_filter,List.mem_append,
    List.mem_map,List.mem_range,List.mem_flatMap,eq_comm]
  exact and_comm

theorem Program.not_isNew (program : Program) {x : Name}
    (defined : program.function.Defined x) : ¬ Name.IsNew x := by
  rcases defined with ⟨i,_,rfl⟩ | ⟨block,member,named⟩
  · exact id
  · obtain ⟨b,bound,rfl⟩ := List.mem_iff_getElem.mp member
    have found := List.getElem?_eq_getElem bound
    rcases List.mem_append.mp named with named | named
    · obtain ⟨i,rfl⟩ := program.mem_phis found named
      exact id
    · obtain ⟨i,_,rfl⟩ := program.mem_body found named
      exact id

section
variable (program : Program) (tree : Tree program.function) (inserted : List (Name × List Nat))

structure Placed : Prop where
  reachable : ∀ x ∈ memoirNames program.function, ∀ b ∈ definitionParents program.function x,
    program.function.graph.Reachable b
  names : ∀ b x, x ∈ insertedAt inserted b → x ∈ memoirNames program.function
  above : ∀ b x, x ∈ insertedAt inserted b → program.function.graph.Reachable b ∧
    ∀ s, x.block? = some s → program.function.graph.StrictlyDominates s b
  nodup : ∀ b, (insertedAt inserted b).Nodup

variable {program tree inserted} (placed : Placed program inserted)
include placed

theorem Placed.instruction_reachable {x : Name} (variable_ : x ∈ memoirNames program.function)
    {b i k : Nat} {inst : Inst} (at_ : program.function.instruction? (.inst b i) = some inst)
    (redefines : (.name x,k) ∈ inst.redefines) : program.function.graph.Reachable b := by
  refine placed.reachable x variable_ b (List.mem_append_right _ ?_)
  obtain ⟨block,n,found,entry⟩ := Function.instruction?_eq_some at_
  obtain ⟨bound,_⟩ := List.getElem?_eq_some_iff.mp found
  refine List.mem_filter.mpr ⟨List.mem_range.mpr bound,?_⟩
  simp only [found,Option.map_some,Option.getD_some,List.any_eq_true]
  exact ⟨_,List.mem_of_getElem? entry,Inst.redefines_defines redefines⟩

theorem Placed.site_reachable {x v : Name} (variable_ : x ∈ memoirNames program.function)
    (version : Version program.function inserted x v) {p : Point} (at_ : site v = some p) :
    program.function.graph.Reachable p.block := by
  cases version with
  | first =>
    rw [firstVersion_site] at at_
    refine placed.reachable x variable_ _ (List.mem_append_left _ ?_)
    simp [(site_block at_).1]
  | redefined at' redefines =>
    obtain rfl := Option.some.inj at_
    exact placed.instruction_reachable variable_ at' redefines
  | inserted member =>
    obtain rfl := Option.some.inj at_
    exact (placed.above _ _ member).1

/-- The first version is above the others. -/
theorem Placed.first_above (tree : Tree program.function) {x v : Name}
    (variable_ : x ∈ memoirNames program.function)
    (version : Version program.function inserted x v) (later : v ≠ firstVersion program.function x) :
    ∃ p, site v = some p ∧ dominates tree (firstVersion program.function x) p = true := by
  cases version with
  | first => exact absurd rfl later
  | @redefined b i k inst at_ redefines =>
    refine ⟨_,rfl,?_⟩
    have reachable := placed.instruction_reachable variable_ at_ redefines
    obtain ⟨block,n,found,entry⟩ := Function.instruction?_eq_some at_
    have usable := program.ssa.operands b block found i n inst entry _
      (Inst.mutated_operands (Inst.redefines_mutated redefines))
    have above := program.available_dominates tree (usable.2 x rfl reachable)
    cases block : x.block? with
    | none => exact dominates_argument tree ((firstVersion_block _ _).trans block) _
    | some s =>
      obtain ⟨q,at',_,lower⟩ := exists_site block
      have position : (firstVersion program.function x).position = x.position :=
        (site_block ((firstVersion_site _ _).trans at')).2.trans (site_block at').2.symm
      rw [dominates_iff tree ((firstVersion_block _ _).trans block),position]
      exact (dominates_iff tree block _).mp above
  | @inserted b member =>
    refine ⟨_,rfl,?_⟩
    cases block : x.block? with
    | none => exact dominates_argument tree ((firstVersion_block _ _).trans block) _
    | some s =>
      have above := (placed.above b x member).2 s block
      exact (dominates_iff tree ((firstVersion_block _ _).trans block) _).mpr (.inr ⟨above.2,above.1⟩)

end

/-- What the reaching definitions say of a variable when the walk comes to a point:
later points find the nearest version from the current one by going up. -/
structure Chained {function : Function} (tree : Tree function) (inserted : List (Name × List Nat))
    (reaching : Reaching) (x : Name) (p : Point) : Prop where
  current : Early tree (firstVersion function x) p → ∃ d,
    reaching.lookup (.name x) = some (.name d) ∧ Version function inserted x d ∧ Early tree d p ∧
      ∀ w, Version function inserted x w → Early tree w p → ∀ q, Later tree p q →
        function.graph.Reachable q.block → dominates tree w q = true →
          w = d ∨ ∃ r, site d = some r ∧ dominates tree w r = true
  linked : ∀ v, Version function inserted x v → v ≠ firstVersion function x → Early tree v p →
    ∃ q d, site v = some q ∧ reaching.lookup (.name v) = some (.name d) ∧
      Nearest function tree inserted x q d
  unmet : ¬ Early tree (firstVersion function x) p → reaching.lookup (.name x) = some (.name x)

theorem mem_of_lookup {α β : Type} [BEq α] [LawfulBEq α] {key : α} {value : β} {entries : List (α × β)}
    (found : entries.lookup key = some value) : (key,value) ∈ entries := by
  obtain ⟨before,after,rfl,_⟩ := List.lookup_eq_some_iff.mp found
  simp

theorem countP_lt {α : Type} {p q : α → Bool} {xs : List α}
    (weaker : ∀ a ∈ xs, p a = true → q a = true) (strict : ∃ a ∈ xs, q a = true ∧ p a = false) :
    xs.countP p < xs.countP q := by
  induction xs with
  | nil =>
    obtain ⟨a,member,_⟩ := strict
    exact absurd member List.not_mem_nil
  | cons x xs ih =>
    have weaker' : ∀ a ∈ xs, p a = true → q a = true :=
      fun a member => weaker a (List.mem_cons_of_mem _ member)
    have le := List.countP_mono_left weaker'
    obtain ⟨a,member,holds,fails⟩ := strict
    simp only [List.countP_cons]
    rcases List.mem_cons.mp member with rfl | member
    · simp only [holds,fails,if_true,Bool.false_eq_true,if_false]
      omega
    · have lt := ih weaker' ⟨a,member,holds,fails⟩
      have head := weaker x List.mem_cons_self
      cases atX : p x with
      | false =>
        rw [if_neg Bool.false_ne_true]
        exact Nat.lt_of_lt_of_le lt (Nat.le_add_right _ _)
      | true =>
        rw [head atX,if_pos rfl]
        exact Nat.add_lt_add_right lt 1

/-- Definitions on record above a version; a chain of versions loses them. -/
private def depth {function : Function} (tree : Tree function) (reaching : Reaching) (v : Name) :
    Nat :=
  reaching.countP fun entry => match entry.1,site v with
    | .name n,some p => dominates tree n p
    | _,_ => false

private theorem depth_lt {function : Function} {tree : Tree function} {reaching : Reaching}
    {d v : Name} {p : Point} (at_ : site v = some p) (above : dominates tree d p = true)
    (reachable : function.graph.Reachable p.block)
    (key : ∃ value, (Value.name d,value) ∈ reaching) :
    depth tree reaching d < depth tree reaching v := by
  obtain ⟨value,member⟩ := key
  refine countP_lt ?_ ⟨_,member,?_,?_⟩
  · rintro ⟨⟨n⟩ | _ | _,_⟩ _ <;> (simp only [at_]; cases site' : site d) <;>
      simp only [Bool.false_eq_true,false_imp_iff]
    exact fun first => dominates_trans tree site' first above reachable
  · simp only [at_,above]
  · cases site' : site d with
    | none => simp
    | some q => simpa using not_dominates_site tree site'

private theorem depth_lt_length {function : Function} {tree : Tree function} {reaching : Reaching}
    {v : Name} (key : ∃ value, (Value.name v,value) ∈ reaching) :
    depth tree reaching v < reaching.length := by
  obtain ⟨value,member⟩ := key
  rw [← List.countP_true]
  refine countP_lt (fun _ _ _ => rfl) ⟨_,member,rfl,?_⟩
  cases site' : site v with
  | none => simp
  | some q => simpa using not_dominates_site tree site'

section
variable {program : Program} {tree : Tree program.function} {inserted : List (Name × List Nat)}
  {reaching : Reaching} {x : Name} (variable_ : x ∈ memoirNames program.function) {p : Point}
  (reachable : program.function.graph.Reachable p.block)
include variable_ reachable

/-- Up the chain, the first version that dominates the point is the nearest. -/
private theorem chase_up (chained : Chained tree inserted reaching x p)
    (above : dominates tree (firstVersion program.function x) p = true) (fuel : Nat) :
    ∀ v, Version program.function inserted x v → Early tree v p → dominates tree v p = false →
      (∀ w, Version program.function inserted x w → dominates tree w p = true →
        w = v ∨ ∃ r, site v = some r ∧ dominates tree w r = true) →
      depth tree reaching v < fuel →
      ∃ d, chase (dominates tree · p) reaching (.name x) fuel (.name v) = some (.name d) ∧
        Nearest program.function tree inserted x p d := by
  induction fuel with
  | zero => exact fun v _ _ _ _ short => absurd short (Nat.not_lt_zero _)
  | succ fuel ih =>
    intro v version early hidden complete short
    have later : v ≠ firstVersion program.function x := by
      rintro rfl
      rw [above] at hidden
      exact absurd hidden (by simp)
    obtain ⟨q,d,at_,next,version',covers,nearest⟩ := chained.linked v version later early
    have complete' : ∀ w, Version program.function inserted x w → dominates tree w p = true →
        w = d ∨ ∃ r, site d = some r ∧ dominates tree w r = true := by
      intro w version'' visible
      rcases complete w version'' visible with rfl | ⟨r,at',visible'⟩
      · rw [visible] at hidden
        exact absurd hidden (by simp)
      · obtain rfl := Option.some.inj (at_.symm.trans at')
        exact nearest w version'' visible'
    have reachable' := early.reachable_site at_ reachable
    cases visible : dominates tree d p with
    | true =>
      refine ⟨d,?_,version',visible,complete'⟩
      simp [chase,next,visible]
    | false =>
      have apart : d ≠ x := by
        rintro rfl
        cases same : decide (firstVersion program.function d = d) with
        | true => simp_all
        | false =>
          have fresh := version'.isNew (Ne.symm (of_decide_eq_false same))
          exact absurd fresh (Program.not_isNew program (mem_memoirNames.mp variable_).2)
      have later' : d ≠ firstVersion program.function x := by
        rintro rfl
        rw [above] at visible
        exact absurd visible (by simp)
      have early' := early.above at_ (early_of_dominates covers reachable')
      obtain ⟨_,_,_,key,_⟩ := chained.linked d version' later' early'
      have shorter := depth_lt at_ covers reachable' ⟨_,mem_of_lookup key⟩
      obtain ⟨result,found,isNearest⟩ := ih d version' early' visible complete' (by omega)
      refine ⟨result,?_,isNearest⟩
      simp [chase,next,visible,apart,found]

/-- The loop of the pass ends on the nearest version. -/
theorem update_nearest (chained : Chained tree inserted reaching x p)
    (above : dominates tree (firstVersion program.function x) p = true) :
    ∃ d, updateReachingDefinition tree reaching (.name x) p =
        some (setReachingDefinition reaching (.name x) (.name d),.name d) ∧
      Nearest program.function tree inserted x p d := by
  obtain ⟨v,start,version,early,complete⟩ :=
    chained.current (early_of_dominates above reachable)
  have complete' : ∀ w, Version program.function inserted x w → dominates tree w p = true →
      w = v ∨ ∃ r, site v = some r ∧ dominates tree w r = true :=
    fun w version' visible => complete w version' (early_of_dominates visible reachable) p
      (.refl tree p) reachable visible
  cases visible : dominates tree v p with
  | true =>
    refine ⟨v,?_,version,visible,complete'⟩
    simp [updateReachingDefinition,chase,start,visible]
  | false =>
    have later : v ≠ firstVersion program.function x := by
      rintro rfl
      rw [above] at visible
      exact absurd visible (by simp)
    have apart : v ≠ x := by
      rintro rfl
      exact Program.not_isNew program (mem_memoirNames.mp variable_).2 (version.isNew later)
    obtain ⟨_,_,_,key,_⟩ := chained.linked v version later early
    obtain ⟨d,found,nearest⟩ := chase_up variable_ reachable chained above reaching.length v
      version early visible complete' (depth_lt_length ⟨_,mem_of_lookup key⟩)
    refine ⟨d,?_,nearest⟩
    simp [updateReachingDefinition,chase,start,visible,apart,found]

end

section
variable {program : Program} {tree : Tree program.function} {inserted : List (Name × List Nat)}
  {reaching after : Reaching} {x : Name} {p q : Point}

theorem Chained.frame (chained : Chained tree inserted reaching x p)
    (same : after.lookup (.name x) = reaching.lookup (.name x))
    (same' : ∀ v, Name.IsNew v → Version program.function inserted x v →
      after.lookup (.name v) = reaching.lookup (.name v)) :
    Chained tree inserted after x p where
  current := by
    rw [same]
    exact chained.current
  linked := by
    intro v version later early
    rw [same' v (version.isNew later) version]
    exact chained.linked v version later early
  unmet := by
    rw [same]
    exact chained.unmet

/-- Nothing is defined between. -/
theorem Chained.advance (chained : Chained tree inserted reaching x p) (later : Later tree p q)
    (none : ∀ w, Version program.function inserted x w → Early tree w q → Early tree w p) :
    Chained tree inserted reaching x q where
  current := by
    intro early
    obtain ⟨d,found,version,early',complete⟩ := chained.current (none _ .first early)
    refine ⟨d,found,version,early'.later later,fun w version' met r later' => ?_⟩
    exact complete w version' (none w version' met) r (later.trans later')
  linked := fun v version apart early => chained.linked v version apart (none v version early)
  unmet := fun unmet => chained.unmet fun early => unmet (early.later later)

variable (placed : Placed program inserted) (variable_ : x ∈ memoirNames program.function)
  (reachable : program.function.graph.Reachable p.block)
include placed variable_

/-- The variable itself is defined. -/
theorem Chained.define (at_ : site x = some p)
    (found : after.lookup (.name x) = some (.name (firstVersion program.function x)))
    (met : Early tree x q)
    (only : ∀ w, Version program.function inserted x w → Early tree w q →
      Early tree w p ∨ site w = some p) : Chained tree inserted after x q := by
  have at' : site (firstVersion program.function x) = some p := by rw [firstVersion_site,at_]
  have alone : ∀ w, Version program.function inserted x w → Early tree w q →
      w = firstVersion program.function x := by
    intro w version early
    by_contra later
    obtain ⟨r,site',above⟩ := placed.first_above tree variable_ version later
    have reachable' := placed.site_reachable variable_ version site'
    rcases only w version early with early | here
    · exact not_early_site at' (early.above site' (early_of_dominates above reachable'))
    · obtain rfl := Option.some.inj (here.symm.trans site')
      exact not_dominates_site tree at' above
  have met' : Early tree (firstVersion program.function x) q := by
    intro b block
    rw [firstVersion_block] at block
    rw [(site_block at').2,← (site_block at_).2]
    exact met b block
  refine ⟨fun _ => ⟨_,found,.first,met',fun w version early _ _ _ _ => .inl (alone w version early)⟩,
    fun v version later early => absurd (alone v version early) later,
    fun unmet => absurd met' unmet⟩

include reachable

/-- An update moves the current version up to the nearest one; what it passes
dominates no later point. -/
theorem Chained.update (chained : Chained tree inserted reaching x p) {d : Name}
    (nearest : Nearest program.function tree inserted x p d)
    (found : after.lookup (.name x) = some (.name d))
    (same : ∀ v, Name.IsNew v → after.lookup (.name v) = reaching.lookup (.name v)) :
    Chained tree inserted after x p where
  current := by
    intro _
    refine ⟨d,found,nearest.1,early_of_dominates nearest.2.1 reachable,?_⟩
    intro w version early r later reachable' above
    exact nearest.2.2 w version (early.dominates later above reachable reachable')
  linked := by
    intro v version later early
    rw [same v (version.isNew later)]
    exact chained.linked v version later early
  unmet := by
    intro unmet
    by_cases first : d = firstVersion program.function x
    · exact absurd (early_of_dominates nearest.2.1 reachable) (first ▸ unmet)
    · obtain ⟨r,at_,above⟩ := placed.first_above tree variable_ nearest.1 first
      have early := early_of_dominates (dominates_trans tree at_ above nearest.2.1 reachable) reachable
      exact absurd early unmet

/-- A new version is defined. -/
theorem Chained.redefine (chained : Chained tree inserted reaching x p) {v d : Name}
    (version : Version program.function inserted x v) (at_ : site v = some p)
    (nearest : Nearest program.function tree inserted x p d)
    (found : after.lookup (.name x) = some (.name v))
    (link : after.lookup (.name v) = some (.name d))
    (same : ∀ w, Name.IsNew w → Version program.function inserted x w → w ≠ v →
      after.lookup (.name w) = reaching.lookup (.name w))
    (later : Later tree p q) (met : Early tree v q)
    (only : ∀ w, Version program.function inserted x w → Early tree w q →
      Early tree w p ∨ w = v) : Chained tree inserted after x q where
  current := by
    intro _
    refine ⟨v,found,version,met,fun w version' early r later' reachable' above => ?_⟩
    rcases only w version' early with early | same
    · exact .inr ⟨p,at_,early.dominates (later.trans later') above reachable reachable'⟩
    · exact .inl same
  linked := by
    intro w version' apart early
    by_cases this : w = v
    · exact ⟨p,d,this ▸ at_,this ▸ link,nearest⟩
    · rw [same w (version'.isNew apart) version' this]
      exact chained.linked w version' apart ((only w version' early).resolve_right this)
  unmet := by
    intro unmet
    have first : Early tree (firstVersion program.function x) p := by
      by_cases first : d = firstVersion program.function x
      · exact early_of_dominates (first ▸ nearest.2.1) reachable
      · obtain ⟨r,at',above⟩ := placed.first_above tree variable_ nearest.1 first
        exact early_of_dominates (dominates_trans tree at' above nearest.2.1 reachable) reachable
    exact absurd (first.later later) unmet

end

end Construction
end Memoir
