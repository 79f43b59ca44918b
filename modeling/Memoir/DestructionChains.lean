import Memoir.Destruction
import Mathlib.Data.List.Nodup

/-! The collections that destruction coalesces: what becomes of a version is available wherever the version
is, so the chains end, and no chain comes back to a name that is defined anew. -/
namespace Memoir.Destruction
open Dominance Coalescing

section
variable {program : SsaFunction} {m n : Name} {b b' k k' t : Nat} {inst inst' : Inst}

def At (program : SsaFunction) (n : Name) (b k : Nat) (inst : Inst) : Prop :=
  ∃ block, program.function.blocks[b]? = some block ∧ block.body[k]? = some (n,inst)

theorem At.named (at_ : At program n b k inst) :
    ∃ block, program.function.blocks[b]? = some block ∧ n ∈ block.names := by
  obtain ⟨block,found,entry⟩ := at_
  exact ⟨block,found,List.mem_append_right _ (List.mem_map_of_mem (List.mem_of_getElem? entry))⟩

theorem defined_block {block block' : BasicBlock} (found : program.function.blocks[b]? = some block)
    (found' : program.function.blocks[b']? = some block') (named : n ∈ block.names)
    (named' : n ∈ block'.names) : b = b' ∧ block = block' := by
  obtain rfl := program.defined_once b b' block block' n found found' named named'
  exact ⟨rfl,Option.some.inj (found.symm.trans found')⟩

theorem At.unique (at_ : At program n b k inst) (at' : At program n b' k' inst') :
    b = b' ∧ k = k' ∧ inst = inst' := by
  obtain ⟨block,found,entry⟩ := at_
  obtain ⟨block',found',entry'⟩ := at'
  have named := List.mem_append_right (block.phis.map Prod.fst)
    (List.mem_map_of_mem (f := Prod.fst) (List.mem_of_getElem? entry))
  have named' := List.mem_append_right (block'.phis.map Prod.fst)
    (List.mem_map_of_mem (f := Prod.fst) (List.mem_of_getElem? entry'))
  obtain ⟨rfl,rfl⟩ := defined_block found found' named named'
  have nodup := (List.nodup_append.mp (program.names_nodup block (List.mem_of_getElem? found))).2.1
  have bound : k < (block.body.map Prod.fst).length := by
    rw [List.length_map]
    exact (List.getElem?_eq_some_iff.mp entry).1
  obtain rfl : k = k' := (List.getElem?_inj bound nodup).mp (by simp [entry,entry'])
  exact ⟨rfl,rfl,congrArg Prod.snd (Option.some.inj (entry.symm.trans entry'))⟩

theorem At.not_argument (at_ : At program n b k inst) (i : Nat) : n ≠ .argument i := by
  obtain ⟨block,found,named⟩ := at_.named
  rintro rfl
  exact program.arguments block (List.mem_of_getElem? found) i named

theorem At.not_phi (at_ : At program n b k inst) {block : BasicBlock}
    (found : program.function.blocks[b']? = some block) : n ∉ block.phis.map Prod.fst := by
  intro phi
  obtain ⟨block',found',entry⟩ := at_
  have body := List.mem_map_of_mem (f := Prod.fst) (List.mem_of_getElem? entry)
  obtain ⟨rfl,rfl⟩ := defined_block found found' (List.mem_append_left _ phi)
    (List.mem_append_right _ body)
  exact (List.nodup_append.mp (program.names_nodup _ (List.mem_of_getElem? found))).2.2 n phi n body rfl

/-- One of the instructions above in the block. -/
theorem mem_take {block : BasicBlock} (found : program.function.blocks[b]? = some block)
    (member : n ∈ (block.body.take k).map Prod.fst) : ∃ j inst, j < k ∧ At program n b j inst := by
  obtain ⟨⟨_,inst⟩,taken,rfl⟩ := List.mem_map.mp member
  obtain ⟨j,bound,is⟩ := List.mem_take_iff_getElem.mp taken
  exact ⟨j,inst,by omega,block,found,List.getElem?_eq_some_iff.mpr ⟨by omega,is⟩⟩

theorem At.take {block : BasicBlock} (found : program.function.blocks[b]? = some block)
    (at_ : At program n b k inst) (less : k < k') : n ∈ (block.body.take k').map Prod.fst := by
  obtain ⟨block',found',entry⟩ := at_
  obtain rfl := Option.some.inj (found.symm.trans found')
  obtain ⟨bound,is⟩ := List.getElem?_eq_some_iff.mp entry
  exact List.mem_map.mpr ⟨_,List.mem_take_iff_getElem.mpr ⟨k,by omega,is⟩,rfl⟩

/-- Where a name that an instruction defines is available. -/
theorem available_iff (at_ : At program n b k inst) :
    program.function.Available n b' k' ↔
      (b = b' ∧ k < k') ∨ program.function.graph.StrictlyDominates b b' := by
  obtain ⟨own,isOwn,named⟩ := at_.named
  constructor
  · rintro (⟨i,_,same⟩ | ⟨block,found,member⟩ | ⟨source,block,found,named',above⟩)
    · exact absurd same (at_.not_argument i)
    · rcases List.mem_append.mp member with phi | member
      · exact absurd phi (at_.not_phi found)
      · obtain ⟨j,_,less,at'⟩ := mem_take found member
        obtain ⟨rfl,rfl,_⟩ := at_.unique at'
        exact .inl ⟨rfl,less⟩
    · obtain ⟨rfl,_⟩ := defined_block isOwn found named named'
      exact .inr above
  · rintro (⟨rfl,less⟩ | above)
    · exact .inr (.inl ⟨own,isOwn,List.mem_append_right _ (at_.take isOwn less)⟩)
    · exact .inr (.inr ⟨b,own,isOwn,named,above⟩)

theorem At.not_available (at_ : At program n b k inst) : ¬ program.function.Available n b k := by
  rw [available_iff at_]
  rintro (⟨_,less⟩ | above)
  · exact absurd less (Nat.lt_irrefl k)
  · exact above.2 rfl

theorem available_reachable (at_ : At program n b k inst)
    (available : program.function.Available n b' k') (reachable : program.function.graph.Reachable b') :
    program.function.graph.Reachable b := by
  rcases (available_iff at_).mp available with ⟨rfl,_⟩ | above
  · exact reachable
  · exact above.1.reachable reachable

/-- What is available at a definition is available where the name is. -/
theorem available_trans (at_ : At program n b k inst)
    (available : program.function.Available n b' k') (above : program.function.Available m b k)
    (reachable : program.function.graph.Reachable b') : program.function.Available m b' k' := by
  rcases above with argument | ⟨block,found,member⟩ | ⟨source,block,found,named,dominates⟩
  · exact .inl argument
  · rcases (available_iff at_).mp available with ⟨rfl,less⟩ | below
    · refine .inr (.inl ⟨block,found,?_⟩)
      rcases List.mem_append.mp member with phi | member
      · exact List.mem_append_left _ phi
      · obtain ⟨j,_,lower,at'⟩ := mem_take found member
        exact List.mem_append_right _ (at'.take found (Nat.lt_trans lower less))
    · refine .inr (.inr ⟨b,block,found,?_,below⟩)
      rcases List.mem_append.mp member with phi | member
      · exact List.mem_append_left _ phi
      · rw [List.map_take] at member
        exact List.mem_append_right _ (List.mem_of_mem_take member)
  · refine .inr (.inr ⟨source,block,found,named,?_⟩)
    rcases (available_iff at_).mp available with ⟨rfl,_⟩ | below
    · exact dominates
    · exact dominates.trans_left below.1 reachable

theorem available_next (available : program.function.Available n b (k + 1)) :
    program.function.Available n b k ∨ ∃ inst, At program n b k inst := by
  rcases available with argument | ⟨block,found,member⟩ | above
  · exact .inl (.inl argument)
  · rcases List.mem_append.mp member with phi | member
    · exact .inl (.inr (.inl ⟨block,found,List.mem_append_left _ phi⟩))
    · obtain ⟨j,inst,less,at_⟩ := mem_take found member
      rcases Nat.lt_succ_iff_lt_or_eq.mp less with lower | rfl
      · exact .inl (.inr (.inl ⟨block,found,List.mem_append_right _ (at_.take found lower)⟩))
      · exact .inr ⟨inst,at_⟩
  · exact .inl (.inr (.inr above))

/-- On an edge, only the PHI nodes are new. -/
theorem available_edge {source target : BasicBlock} (found : program.function.blocks[b]? = some source)
    (found' : program.function.blocks[t]? = some target) (edge : t ∈ program.function.successors b)
    (available : program.function.Available n t 0) (other : n ∉ target.phis.map Prod.fst) :
    program.function.Available n b source.body.length := by
  rcases available with argument | ⟨block,at_,member⟩ | ⟨above,block,at_,named,strict⟩
  · exact .inl argument
  · obtain rfl := Option.some.inj (found'.symm.trans at_)
    rw [List.take_zero,List.map_nil,List.append_nil] at member
    exact absurd member other
  · by_cases same : above = b
    · subst same
      obtain rfl := Option.some.inj (found.symm.trans at_)
      refine .inr (.inl ⟨source,found,?_⟩)
      rw [List.take_length]
      exact named
    · exact .inr (.inr ⟨above,block,at_,named,strict.predecessor edge,same⟩)

/-- What is available at a definition above a block is none of the PHI nodes of the block. -/
theorem At.above_phi {block : BasicBlock} (at_ : At program n b k inst)
    (found : program.function.blocks[t]? = some block) (reachable : program.function.graph.Reachable t)
    (available : program.function.Available n t 0) (above : program.function.Available m b k) :
    m ∉ block.phis.map Prod.fst := by
  intro phi
  have named : m ∈ block.names := List.mem_append_left _ phi
  have strict : program.function.graph.StrictlyDominates b t :=
    ((available_iff at_).mp available).resolve_left fun below => absurd below.2 (Nat.not_lt_zero _)
  rcases above with ⟨i,_,rfl⟩ | ⟨block',found',member⟩ | ⟨source,block',found',named',above'⟩
  · exact program.arguments block (List.mem_of_getElem? found) i named
  · have named' : m ∈ block'.names := by
      refine List.mem_append.mpr ((List.mem_append.mp member).imp_right fun member => ?_)
      rw [List.map_take] at member
      exact List.mem_of_mem_take member
    exact strict.2 (defined_block found' found named' named).1
  · obtain ⟨rfl,_⟩ := defined_block found' found named' named
    exact strict.2 (strict.1.antisymm above'.1 (strict.1.reachable reachable))

end

/-- The operand whose object a call updates without a result, or that gets another name. -/
def coalescedOperand : Inst → Option Value
  | .indexWrite _ object _ | .assocWrite _ object _ => some object
  | .seqSwapWithin collection _ _ _ => some collection
  | .assocInsert base _ | .assocRemove base _ => some base
  | .collectionPhi _ collection => some collection
  | _ => none

section
variable {program : SsaFunction} {tree : Construction.Tree program.function} {m n : Name}
  {b b' k k' t : Nat} {inst inst' : Inst} {v v' : Value}

theorem mem_visited {entry : Name × Inst} : entry ∈ visited program.function tree ↔
    ∃ b k, program.function.graph.Reachable b ∧ At program entry.1 b k entry.2 := by
  simp only [visited,List.mem_flatMap,List.mem_filterMap,tree.preorder_reachable]
  constructor
  · rintro ⟨block,⟨b,reachable,found⟩,member⟩
    obtain ⟨k,bound,is⟩ := List.mem_iff_getElem.mp member
    exact ⟨b,k,reachable,block,found,List.getElem?_eq_some_iff.mpr ⟨bound,is⟩⟩
  · rintro ⟨b,k,reachable,block,found,entry⟩
    exact ⟨block,⟨b,reachable,found⟩,List.mem_of_getElem? entry⟩

theorem mem_extractions {pair : Name} {second : Bool} :
    (n,second) ∈ extractions program.function pair ↔
      ∃ b k, At program n b k (.extractValue pair second) := by
  simp only [extractions,List.mem_flatMap,List.mem_filterMap]
  constructor
  · rintro ⟨block,inBlocks,⟨n',inst⟩,member,is⟩
    obtain ⟨b,bound,found⟩ := List.mem_iff_getElem.mp inBlocks
    obtain ⟨k,bound',entry⟩ := List.mem_iff_getElem.mp member
    cases inst <;> simp only [reduceCtorEq,Option.ite_none_right_eq_some,Option.some.injEq,
      Prod.mk.injEq] at is
    obtain ⟨rfl,rfl,rfl⟩ := is
    exact ⟨b,k,block,List.getElem?_eq_some_iff.mpr ⟨bound,found⟩,
      List.getElem?_eq_some_iff.mpr ⟨bound',entry⟩⟩
  · rintro ⟨b,k,block,found,entry⟩
    exact ⟨block,List.mem_of_getElem? found,_,List.mem_of_getElem? entry,by simp⟩

/-- The result of a call without one, or a part of the result of a swap. -/
inductive Becomes (program : SsaFunction) : Name → Value → Prop
  | written {n : Name} {b k : Nat} {inst : Inst} {v : Value} (at_ : At program n b k inst)
    (reachable : program.function.graph.Reachable b) (operand : coalescedOperand inst = some v) :
    Becomes program n v
  | extracted {n p : Name} {b k b' k' : Nat} {x y : Value} {first last toFirst : Scalar} {second : Bool}
    (at_ : At program n b k (.extractValue p second))
    (swap : At program p b' k' (.seqSwap x first last y toFirst))
    (reachable : program.function.graph.Reachable b') : Becomes program n (if second then y else x)

theorem mem_coalescedValues : (v,v') ∈ coalescedValues program.function tree ↔
    ∃ n, v = .name n ∧ Becomes program n v' := by
  simp only [coalescedValues,List.mem_flatMap,mem_visited]
  constructor
  · rintro ⟨⟨n,inst⟩,⟨b,k,reachable,at_⟩,member⟩
    cases inst <;> simp only [coalesces,List.mem_cons,List.not_mem_nil,or_false,Prod.mk.injEq,
      List.mem_map] at member
    case seqSwap x first last y toFirst =>
      obtain ⟨⟨m,second⟩,extraction,rfl,rfl⟩ := member
      obtain ⟨b',k',extract⟩ := mem_extractions.mp extraction
      exact ⟨m,rfl,.extracted extract at_ reachable⟩
    all_goals
      obtain ⟨rfl,rfl⟩ := member
      exact ⟨n,rfl,.written at_ reachable rfl⟩
  · rintro ⟨n,rfl,becomes⟩
    cases becomes with
    | @written b k inst _ at_ reachable operand =>
      refine ⟨(n,inst),⟨b,k,reachable,at_⟩,?_⟩
      cases inst <;> simp only [coalescedOperand,reduceCtorEq,Option.some.injEq] at operand
      all_goals
        subst operand
        exact List.mem_singleton.mpr rfl
    | @extracted p b k b' k' x y first last toFirst second at_ swap reachable =>
      refine ⟨(p,.seqSwap x first last y toFirst),⟨b',k',reachable,swap⟩,?_⟩
      exact List.mem_map.mpr ⟨(n,second),mem_extractions.mpr ⟨b,k,at_⟩,rfl⟩

theorem Becomes.site (becomes : Becomes program n v) : ∃ b k inst, At program n b k inst := by
  cases becomes with
  | written at_ _ _ => exact ⟨_,_,_,at_⟩
  | extracted at_ _ _ => exact ⟨_,_,_,at_⟩

theorem Becomes.unique (becomes : Becomes program n v) (becomes' : Becomes program n v') : v = v' := by
  cases becomes with
  | written at_ _ operand =>
    cases becomes' with
    | written at' _ operand' =>
      obtain ⟨_,_,rfl⟩ := at_.unique at'
      exact Option.some.inj (operand.symm.trans operand')
    | extracted at' _ _ =>
      obtain ⟨_,_,rfl⟩ := at_.unique at'
      exact absurd operand (by simp [coalescedOperand])
  | extracted at_ swap _ =>
    cases becomes' with
    | written at' _ operand' =>
      obtain ⟨_,_,rfl⟩ := at_.unique at'
      exact absurd operand' (by simp [coalescedOperand])
    | extracted at' swap' _ =>
      obtain ⟨_,_,same⟩ := at_.unique at'
      obtain ⟨rfl,rfl⟩ := Inst.extractValue.inj same
      obtain ⟨_,_,same'⟩ := swap.unique swap'
      obtain ⟨rfl,_,_,rfl,_⟩ := Inst.seqSwap.inj same'
      rfl

theorem coalescedOperand_operand (operand : coalescedOperand inst = some v) : v ∈ inst.operands := by
  cases inst <;> simp only [coalescedOperand,reduceCtorEq,Option.some.injEq] at operand
  all_goals
    subst operand
    simp [Inst.operands,Inst.mutated,Inst.read]

theorem operand_available (at_ : At program n b k inst)
    (reachable : program.function.graph.Reachable b) (used : .name m ∈ inst.operands) :
    program.function.Available m b k := by
  obtain ⟨block,found,entry⟩ := at_
  exact (program.ssa.operands b block found k n inst entry _ used).2 m rfl reachable

/-- Where the collection is an operand. -/
theorem Becomes.reached (becomes : Becomes program n (.name m)) :
    ∃ b k, program.function.graph.Reachable b ∧ program.function.Available m b k := by
  generalize is : Value.name m = v at becomes
  cases becomes with
  | written at_ reachable operand =>
    subst is
    exact ⟨_,_,reachable,operand_available at_ reachable (coalescedOperand_operand operand)⟩
  | extracted at_ swap reachable =>
    refine ⟨_,_,reachable,operand_available swap reachable ?_⟩
    rw [is]
    split <;> simp [Inst.operands,Inst.mutated]

theorem Becomes.available (becomes : Becomes program n (.name m)) (at_ : At program n b k inst)
    (reachable : program.function.graph.Reachable b) : program.function.Available m b k := by
  generalize is : Value.name m = v at becomes
  cases becomes with
  | written at' _ operand =>
    obtain ⟨rfl,rfl,rfl⟩ := at_.unique at'
    subst is
    exact operand_available at_ reachable (coalescedOperand_operand operand)
  | extracted at' swap reachable' =>
    obtain ⟨rfl,rfl,rfl⟩ := at_.unique at'
    obtain ⟨block,found,entry⟩ := at_
    refine available_trans swap ((program.pairs b block found k n _ _ entry).1 reachable)
      (operand_available swap reachable' ?_) reachable
    rw [is]
    split <;> simp [Inst.operands,Inst.mutated]

theorem coalesced_becomes (step : Coalesced (coalescedValues program.function tree) v v') :
    ∃ n, v = .name n ∧ Becomes program n v' := by
  obtain ⟨before,after,split,_⟩ := List.lookup_eq_some_iff.mp step
  have member : (v,v') ∈ coalescedValues program.function tree := by
    rw [split]
    exact List.mem_append_right _ List.mem_cons_self
  exact mem_coalescedValues.mp member

theorem Becomes.coalesced (becomes : Becomes program n v) :
    Coalesced (coalescedValues program.function tree) (.name n) v := by
  have member : (Value.name n,v) ∈ coalescedValues program.function tree :=
    mem_coalescedValues.mpr ⟨n,rfl,becomes⟩
  obtain ⟨v',found⟩ : ∃ v', (coalescedValues program.function tree).lookup (.name n) = some v' := by
    refine Option.isSome_iff_exists.mp (Option.isSome_iff_ne_none.mpr fun none => ?_)
    have apart := List.lookup_eq_none_iff.mp none _ member
    simp at apart
  obtain ⟨n',same,becomes'⟩ := coalesced_becomes found
  obtain rfl := Value.name.inj same
  rw [becomes.unique becomes']
  exact found

/-- All that a chain passes is available at the definition of the version. -/
theorem chain_available (chain : Relation.TransGen (Coalesced (coalescedValues program.function tree))
    (.name n) (.name m)) (at_ : At program n b k inst)
    (reachable : program.function.graph.Reachable b) : program.function.Available m b k := by
  generalize is : Value.name m = v at chain
  induction chain generalizing m with
  | single step =>
    subst is
    obtain ⟨n',same,becomes⟩ := coalesced_becomes step
    obtain rfl := Value.name.inj same
    exact becomes.available at_ reachable
  | tail _ step ih =>
    subst is
    obtain ⟨middle,rfl,becomes⟩ := coalesced_becomes step
    obtain ⟨b',k',inst',at'⟩ := becomes.site
    have above := ih rfl
    exact available_trans at' above (becomes.available at' (available_reachable at' above reachable))
      reachable

/-- What the operands become: the ends of the chains. -/
def Resolves (program : SsaFunction) (tree : Construction.Tree program.function) (f : Value → Value) :
    Prop :=
  ∀ v, ChainEnd (coalescedValues program.function tree) v (f v)

variable {f : Value → Value} (resolves : Resolves program tree f)
include resolves

theorem Resolves.other (none : ∀ v', ¬ Becomes program n v') : f (.name n) = .name n := by
  rcases (resolves (.name n)).1.cases_head with same | ⟨v',step,_⟩
  · exact same.symm
  · obtain ⟨n',same,becomes⟩ := coalesced_becomes step
    obtain rfl := Value.name.inj same
    exact absurd becomes (none v')

theorem Resolves.name (is : f v = .name m) : ∃ n, v = .name n := by
  rcases (resolves v).1.cases_head with same | ⟨v',step,_⟩
  · exact ⟨m,same.trans is⟩
  · obtain ⟨n,same,_⟩ := coalesced_becomes step
    exact ⟨n,same⟩

theorem Resolves.becomes (becomes : Becomes program n v) : f (.name n) = f v := by
  have step : Coalesced (coalescedValues program.function tree) (.name n) v := becomes.coalesced
  exact (resolves (.name n)).unique ⟨.head step (resolves v).1,(resolves v).2⟩

/-- A definition is not the end of the chain of another name that is available there. -/
theorem Resolves.apart (at_ : At program n b k inst) (reachable : program.function.graph.Reachable b)
    (other : m ≠ n) (old : (∀ v, ¬ Becomes program m v) ∨ program.function.Available m b k) :
    f (.name m) ≠ .name n := by
  intro same
  have chain := (resolves (.name m)).1
  rw [same] at chain
  rcases Relation.reflTransGen_iff_eq_or_transGen.mp chain with equal | chain
  · exact other (Value.name.inj equal).symm
  · obtain ⟨v,step,_⟩ := Relation.TransGen.head'_iff.mp chain
    obtain ⟨m',is,becomes⟩ := coalesced_becomes step
    obtain rfl := Value.name.inj is
    rcases old with none | available
    · exact none v becomes
    · obtain ⟨b',k',inst',at'⟩ := becomes.site
      have above := chain_available chain at' (available_reachable at' available reachable)
      exact at_.not_available (available_trans at' available above reachable)

/-- Nor is a PHI node, on the edge into its block. -/
theorem Resolves.apart_phi {block : BasicBlock} (found : program.function.blocks[t]? = some block)
    (phi : n ∈ block.phis.map Prod.fst) (reachable : program.function.graph.Reachable t) (other : m ≠ n)
    (old : (∀ v, ¬ Becomes program m v) ∨ program.function.Available m t 0) :
    f (.name m) ≠ .name n := by
  intro same
  have chain := (resolves (.name m)).1
  rw [same] at chain
  rcases Relation.reflTransGen_iff_eq_or_transGen.mp chain with equal | chain
  · exact other (Value.name.inj equal).symm
  · obtain ⟨v,step,_⟩ := Relation.TransGen.head'_iff.mp chain
    obtain ⟨m',is,becomes⟩ := coalesced_becomes step
    obtain rfl := Value.name.inj is
    rcases old with none | available
    · exact none v becomes
    · obtain ⟨b',k',inst',at'⟩ := becomes.site
      exact at'.above_phi found reachable available
        (chain_available chain at' (available_reachable at' available reachable)) phi

end

end Memoir.Destruction
