import Memoir.RangeAnalysis

/-! When an observed index is in the range of its use: the range of an induction variable starts at
its start value and ends before its exit value, which the loop's comparison does not always ensure. -/
namespace Memoir
namespace RangeAnalysis

/-- Where a value for which the comparison holds is below the exit value. -/
def Predicate.Below (bits value exit : Nat) : Predicate → Prop
  | ult => True
  | ule => value ≠ exit
  | ne => value ≤ exit
  | slt => negative bits value → negative bits exit
  | sle => value ≠ exit ∧ (negative bits value → negative bits exit)
  | sgt | sge => ¬ negative bits value ∧ negative bits exit
  | eq | ugt | uge => False

theorem Predicate.below_iff {predicate : Predicate} {bits value exit : Nat}
    (holds : predicate.holds bits value exit = true) :
    predicate.Below bits value exit ↔ value < exit := by
  constructor
  · intro below
    cases predicate <;>
      simp only [Predicate.holds,Predicate.Below,signedLess,negative,decide_eq_true_eq] at holds below <;>
      grind
  · intro less
    cases predicate <;>
      simp only [Predicate.holds,Predicate.Below,signedLess,negative,decide_eq_true_eq] at holds ⊢ <;>
      grind

/-- What a use of an instruction in a governed loop needs: its value is not below that of the entry
PHI, it has passed the comparison of this iteration or would pass it, and the comparison is strict
for it. -/
def Strict (loop : Loop) (governing : LoopGoverningInductionVariable) (exit : Value)
    (config : Config) (index : Nat) : Prop :=
  config.env.insts governing.inductionVariable.loopEntryPhi ≤ config.env.insts index ∧
    (config.block ≠ loop.header ∧ config.env.insts index = config.env.insts governing.compared ∨
      governing.predicate.holds governing.inductionVariable.bits (config.env.insts index)
        (config.env.value exit) = true) ∧
    governing.predicate.Below governing.inductionVariable.bits (config.env.insts index)
      (config.env.value exit)

structure Meets (function : Function) (loops : List Loop) (config : Config) : Prop where
  not_constant : ∀ word, .constantInt word ∉ config.indexUses function
  not_argument : ∀ argument, .argument argument ∉ config.indexUses function
  strict : ∀ index, .inst index ∈ config.indexUses function → ∀ loop governing start exit,
    Governed loops loop governing start exit → config.block ∈ loop.blocks →
    loop.getInductionVariable index = some governing.inductionVariable →
    Strict loop governing exit config index

/-- The induction variables of a back edge do not wrap around, or start at zero. -/
def Unwrapped (loops : List Loop) (before after : Config) : Prop :=
  ∀ loop governing start exit, Governed loops loop governing start exit →
    before.block ∈ loop.blocks → after.block = loop.header → after.index = 0 →
    before.env.insts governing.inductionVariable.loopEntryPhi +
        governing.inductionVariable.stepValue < 2 ^ governing.inductionVariable.bits ∨
      before.env.value start = 0

structure MetStep (function : Function) (loops : List Loop) (step : Config → Config → Prop)
    (before after : Config) : Prop where
  isStep : step before after
  meets : Meets function loops before
  unwrapped : Unwrapped loops before after

section
variable {function : Function} {loops : List Loop} {step : Config → Config → Prop} {loop : Loop}
variable {governing : LoopGoverningInductionVariable} {start exit value : Value}
variable {env : Env} {before after : Config} {block name word : Nat}

theorem Env.value_set (other : value ≠ .inst name) : (env.set name word).value value = env.value value := by
  cases value with
  | inst name' => exact Function.update_of_ne (fun same => other (by rw [same])) _ _
  | constantInt _ | constant _ | argument _ => rfl

theorem Env.value_insts {insts : Nat → Nat} (kept : ∀ name, value = .inst name → insts name = env.insts name) :
    Env.value {env with insts} value = env.value value := by
  cases value with
  | inst name => exact kept name rfl
  | constantInt _ | constant _ | argument _ => rfl

theorem definedIn_body {basicBlock : BasicBlock} {index : Nat} {inst : Inst}
    (isBlock : function[block]? = some basicBlock) (isInst : basicBlock.body[index]? = some (name,inst)) :
    DefinedIn function block (.inst name) :=
  ⟨name,basicBlock,rfl,isBlock,List.mem_append_right _
    (List.mem_map.mpr ⟨_,List.mem_of_getElem? isInst,rfl⟩)⟩

/-- A step keeps what is not defined in the block where it ends. -/
theorem Step.kept (stepped : Step function before after) (other : ¬ DefinedIn function after.block value) :
    after.env.value value = before.env.value value := by
  cases stepped with
  | inst word isBlock isInst =>
    exact Env.value_set fun same => other (same ▸ definedIn_body isBlock isInst)
  | edge _ _ isTarget kept =>
    apply Env.value_insts
    rintro name rfl
    apply kept
    intro isPhi
    exact other ⟨name,_,rfl,isTarget,List.mem_append_left _ isPhi⟩

theorem Step.kept_inst (stepped : Step function before after)
    (other : ¬ DefinedIn function after.block (.inst name)) :
    after.env.insts name = before.env.insts name := by
  have kept : after.env.value (.inst name) = before.env.value (.inst name) := stepped.kept other
  exact kept

/-- The entry PHI is defined by the edges to the header. -/
theorem Facts.phi_kept (facts : Facts function step loop governing start exit)
    (stepped : Step function before after) (other : after.block = loop.header → after.index ≠ 0) :
    after.env.insts governing.inductionVariable.loopEntryPhi =
      before.env.insts governing.inductionVariable.loopEntryPhi := by
  by_cases isHeader : after.block = loop.header
  · cases stepped with
    | inst word isBlock isInst =>
      apply Function.update_of_ne
      rintro same
      dsimp only at isHeader
      subst isHeader
      exact facts.phi_edge _ isBlock (List.mem_map.mpr ⟨_,List.mem_of_getElem? isInst,same.symm⟩)
    | edge => exact absurd rfl (other isHeader)
  · exact stepped.kept_inst fun defined => isHeader (facts.phi_header _ defined)

structure Bounded (loop : Loop) (governing : LoopGoverningInductionVariable) (start exit : Value)
    (config : Config) : Prop where
  started : config.env.value start ≤ config.env.insts governing.inductionVariable.loopEntryPhi
  stayed : config.block ≠ loop.header → governing.predicate.holds governing.inductionVariable.bits
    (config.env.insts governing.compared) (config.env.value exit) = true

theorem Facts.bounded_step (facts : Facts function step loop governing start exit)
    (governed : Governed loops loop governing start exit) (isStep : step before after)
    (stepped : Step function before after) (unwrapped : Unwrapped loops before after)
    (bounded : before.block ∈ loop.blocks → Bounded loop governing start exit before)
    (inside : after.block ∈ loop.blocks) : Bounded loop governing start exit after := by
  by_cases from_inside : before.block ∈ loop.blocks
  · have start_kept := stepped.kept (facts.start_outside after.block inside)
    refine ⟨?_,fun notHeader => ?_⟩
    · rw [start_kept]
      have started := (bounded from_inside).started
      by_cases back : after.block = loop.header ∧ after.index = 0
      · rw [facts.steps before after isStep from_inside back.1 back.2]
        rcases unwrapped loop governing start exit governed from_inside back.1 back.2 with less | zero
        · rw [Nat.mod_eq_of_lt less]
          exact Nat.le_trans started (Nat.le_add_right _ _)
        · rw [zero]
          exact Nat.zero_le _
      · rw [facts.phi_kept stepped fun isHeader isFirst => back ⟨isHeader,isFirst⟩]
        exact started
    · rw [stepped.kept (facts.exit_above after.block inside notHeader),
        stepped.kept_inst (facts.compared_above after.block inside notHeader)]
      by_cases from_header : before.block = loop.header
      · apply facts.stays before after isStep from_header inside
        cases stepped with
        | inst => exact absurd from_header notHeader
        | edge => rfl
      · exact (bounded from_inside).stayed from_header
  · refine ⟨Nat.le_of_eq (facts.starts before after isStep from_inside inside).symm,fun notHeader => ?_⟩
    exact absurd (facts.entered before after isStep from_inside inside) notHeader

theorem Facts.bounded_run (facts : Facts function step loop governing start exit)
    (framed : ∀ before after, step before after → Step function before after)
    (governed : Governed loops loop governing start exit) {config : Config}
    (run : Relation.ReflTransGen (MetStep function loops step) ⟨0,0,env⟩ config)
    (inside : config.block ∈ loop.blocks) :
    Bounded loop governing start exit config := by
  induction run with
  | refl => exact absurd inside facts.outside
  | tail _ stepped ih =>
    exact facts.bounded_step governed stepped.isStep (framed _ _ stepped.isStep) stepped.unwrapped ih inside

/-- The assigned range is that of one of the loops around the use. -/
theorem assigned_range {ranges : List (Loop × ValueRange)} {assigned : Option ValueRange}
    {range : ValueRange} (isRange : ranges.foldl (fun assigned (loop,range) =>
      if block ∈ loop.blocks then some range else assigned) assigned = some range) :
    assigned = some range ∨ ∃ loop, (loop,range) ∈ ranges ∧ block ∈ loop.blocks := by
  induction ranges generalizing assigned with
  | nil => exact .inl isRange
  | cons first ranges ih =>
    rcases ih isRange with isFirst | ⟨loop,member,inside⟩
    · dsimp only at isFirst
      by_cases inside : block ∈ first.1.blocks
      · rw [if_pos inside] at isFirst
        obtain rfl := Option.some.inj isFirst
        exact .inr ⟨first.1,by simp,inside⟩
      · rw [if_neg inside] at isFirst
        exact .inl isFirst
    · exact .inr ⟨loop,by simp [member],inside⟩

theorem bound_llvmValue (env : Env) (value : Value) : env.bound (llvmValueToExpr value) = some (env.value value) := by
  cases value <;> rfl

theorem overdefined_contains (env : Env) (word : Nat) : overdefinedRange.Contains env word := by
  simp [overdefinedRange,ValueRange.Contains,Env.bound,Env.value]

/-- The range of an instruction is that of a governing induction variable, or holds all values. -/
theorem analyze_inst {index : Nat} {range : ValueRange} (isRange : analyze loops block (.inst index) = some range) :
    range = overdefinedRange ∨ ∃ loop governing start exit, Governed loops loop governing start exit ∧
      block ∈ loop.blocks ∧ loop.getInductionVariable index = some governing.inductionVariable ∧
      range = ⟨llvmValueToExpr start,llvmValueToExpr exit⟩ := by
  rcases assigned_range isRange with none | ⟨loop,member,inside⟩
  · exact absurd none (by simp)
  · simp only [loopToRange,List.mem_filterMap,Option.bind_eq_bind,Option.bind_eq_some_iff] at member
    obtain ⟨loop',isLoop,governing,isGoverning,induction,isInduction,same⟩ := member
    obtain ⟨rfl,rfl⟩ := Prod.mk.inj (Option.some.inj same)
    unfold inductionVariableToRange
    split_ifs with isGoverned
    · subst isGoverned
      unfold governingToRange
      split
      · rename_i start exit isStart isPositive isExit
        exact .inr ⟨_,governing,start,exit,⟨isLoop,isGoverning,isStart,isPositive,isExit⟩,inside,
          isInduction,rfl⟩
      · exact .inl rfl
    · exact .inl rfl

/-- Range analysis is sound for the runs whose steps meet the conditions. -/
theorem range_sound (framed : ∀ before after, step before after → Step function before after)
    (facts : ∀ loop governing start exit, Governed loops loop governing start exit →
      Facts function step loop governing start exit) {config : Config}
    (run : Relation.ReflTransGen (MetStep function loops step) ⟨0,0,env⟩ config)
    (meets : Meets function loops config) : InRange function loops config := by
  intro index isUse range isRange
  cases index with
  | constantInt word => exact absurd isUse (meets.not_constant word)
  | argument argument => exact absurd isUse (meets.not_argument argument)
  | constant id => exact absurd isRange (by simp [analyze])
  | inst index =>
    rcases analyze_inst isRange with rfl | ⟨loop,governing,start,exit,governed,inside,isInduction,rfl⟩
    · exact overdefined_contains _ _
    · have bounded := (facts loop governing start exit governed).bounded_run framed governed run inside
      obtain ⟨above,passed,below⟩ := meets.strict index isUse loop governing start exit governed inside isInduction
      have holds : governing.predicate.holds governing.inductionVariable.bits (config.env.insts index)
          (config.env.value exit) = true := by
        rcases passed with ⟨notHeader,same⟩ | holds
        · rw [same]
          exact bounded.stayed notHeader
        · exact holds
      simp only [ValueRange.Contains,bound_llvmValue,Option.mem_some_iff,forall_eq']
      exact ⟨Nat.le_trans bounded.started above,(Predicate.below_iff holds).mp below⟩

/-- A constant or an argument is never in its range. -/
theorem not_inRange {config : Config} (isUse : value ∈ config.indexUses function)
    (plain : (∃ word, value = .constantInt word) ∨ ∃ argument, value = .argument argument) :
    ¬ InRange function loops config := by
  intro inRange
  rcases plain with ⟨word,rfl⟩ | ⟨argument,rfl⟩
  · exact absurd ((inRange _ isUse _ rfl).2 _ rfl) (Nat.lt_irrefl _)
  · exact absurd ((inRange _ isUse _ rfl).2 _ rfl) (Nat.lt_irrefl _)

end

def counter : InductionVariable := ⟨0,some (.constantInt 0),true,1,64⟩

def countingLoop : Loop where
  header := 1
  blocks := [1,2]
  loopGoverning := some ⟨counter,some (.constantInt 4),.ult,0⟩
  getInductionVariable := fun index => if index = 0 ∨ index = 2 then some counter else none

def counting : Function :=
  [⟨[],[],[1]⟩,⟨[(0,[.constantInt 0,.inst 2])],[(1,.other)],[2,3]⟩,
    ⟨[],[(3,.indexRead (.argument 0) [.inst 0]),(2,.other)],[1]⟩,⟨[],[],[]⟩]

inductive Counts : Config → Config → Prop
  | enter (env : Env) : Counts ⟨0,0,env⟩ ⟨1,0,env.set 0 0⟩
  | compare (env : Env) : Counts ⟨1,0,env⟩ ⟨1,1,env.set 1 (if env.insts 0 < 4 then 1 else 0)⟩
  | stay (env : Env) : env.insts 0 < 4 → Counts ⟨1,1,env⟩ ⟨2,0,env⟩
  | leave (env : Env) : 4 ≤ env.insts 0 → Counts ⟨1,1,env⟩ ⟨3,0,env⟩
  | read (env : Env) : Counts ⟨2,0,env⟩ ⟨2,1,env.set 3 0⟩
  | add (env : Env) : Counts ⟨2,1,env⟩ ⟨2,2,env.set 2 ((env.insts 0 + 1) % 2 ^ 64)⟩
  | again (env : Env) : Counts ⟨2,2,env⟩ ⟨1,0,env.set 0 ((env.insts 0 + 1) % 2 ^ 64)⟩

theorem Env.set_kept (env : Env) (name word : Nat) :
    ∀ name', name' ∉ [name] → (env.set name word).insts name' = env.insts name' :=
  fun _ other => Function.update_of_ne (by simpa using other) _ _

theorem counts_framed (before after : Config) (counts : Counts before after) :
    Step counting before after := by
  have entry : counting[0]? = some ⟨[],[],[1]⟩ := rfl
  have header : counting[1]? = some ⟨[(0,[.constantInt 0,.inst 2])],[(1,.other)],[2,3]⟩ := rfl
  have body : counting[2]? = some
    ⟨[],[(3,.indexRead (.argument 0) [.inst 0]),(2,.other)],[1]⟩ := rfl
  have exit : counting[3]? = some ⟨[],[],[]⟩ := rfl
  cases counts with
  | enter env => exact .edge entry (by simp) header (Env.set_kept env 0 0)
  | compare => exact .inst _ header rfl
  | stay => exact .edge header (by simp) body fun _ _ => rfl
  | leave => exact .edge header (by simp) exit fun _ _ => rfl
  | read => exact .inst _ body rfl
  | add => exact .inst _ body rfl
  | again env => exact .edge body (by simp) header (Env.set_kept env 0 _)

theorem counting_phi {block : Nat} (defined : DefinedIn counting block (.inst 0)) : block = 1 := by
  obtain ⟨name,basicBlock,same,isBlock,isName⟩ := defined
  obtain rfl := Value.inst.inj same
  match block with
  | 1 => rfl
  | 0 | 2 | 3 =>
    obtain rfl := Option.some.inj isBlock
    exact absurd isName (by decide)
  | block + 4 => exact absurd isBlock (by simp [counting])

theorem counting_facts : Facts counting Counts countingLoop
    ⟨counter,some (.constantInt 4),.ult,0⟩ (.constantInt 0) (.constantInt 4) where
  outside := by decide
  entered := by
    rintro _ _ (_ | _ | _ | _ | _ | _ | _) isOutside isInside
    · rfl
    all_goals exact absurd (by simp [countingLoop]) isOutside
  phi_header := fun _ => counting_phi
  phi_edge := by
    rintro _ ⟨⟩
    decide
  start_outside := by
    rintro _ _ ⟨_,_,same,_⟩
    cases same
  exit_above := by
    rintro _ _ _ ⟨_,_,same,_⟩
    cases same
  compared_above := fun _ _ notHeader defined => notHeader (counting_phi defined)
  starts := by
    rintro _ _ (_ | _ | _ | _ | _ | _ | _) isOutside isInside
    · rfl
    all_goals exact absurd (by simp [countingLoop]) isOutside
  steps := by
    rintro _ _ (_ | _ | _ | _ | _ | _ | env) isInside isHeader isFirst
    · exact absurd isInside (by simp [countingLoop])
    · cases isFirst
    · cases isHeader
    · cases isHeader
    · cases isFirst
    · cases isFirst
    · simp [Env.set,counter]
  positive := by decide
  stays := by
    rintro _ _ (_ | _ | ⟨env,less⟩ | _ | _ | _ | _) isHeader isInside isFirst
    · cases isHeader
    · cases isFirst
    · exact decide_eq_true less
    · exact absurd isInside (by simp [countingLoop])
    · cases isHeader
    · cases isHeader
    · cases isHeader

def zeros : Env := ⟨fun _ => 0,fun _ => 0,fun _ => 0⟩

section
variable {loop : Loop} {governing : LoopGoverningInductionVariable} {start exit : Value} {before after : Config}
  {env : Env}

theorem counting_governed (governed : Governed [countingLoop] loop governing start exit) :
    loop = countingLoop ∧ governing = ⟨counter,some (.constantInt 4),.ult,0⟩ ∧ start = .constantInt 0 ∧
      exit = .constantInt 4 := by
  obtain ⟨isLoop,isGoverning,isStart,_,isExit⟩ := governed
  obtain rfl := List.mem_singleton.mp isLoop
  obtain rfl := Option.some.inj isGoverning
  exact ⟨rfl,rfl,(Option.some.inj isStart).symm,(Option.some.inj isExit).symm⟩

theorem counting_meets : Meets counting [countingLoop] ⟨2,0,env⟩ where
  not_constant := by simp [Config.indexUses,counting,Inst.indexUses]
  not_argument := by simp [Config.indexUses,counting,Inst.indexUses]
  strict := by
    intro index isUse loop governing start exit governed _ _
    obtain rfl : index = 0 := by simpa [Config.indexUses,counting,Inst.indexUses] using isUse
    obtain ⟨rfl,rfl,rfl,rfl⟩ := counting_governed governed
    exact ⟨Nat.le_refl _,.inl ⟨by simp [countingLoop],rfl⟩,trivial⟩

/-- The count starts at zero, so that it may wrap around. -/
theorem counting_step (counts : Counts before after)
    (meets : before.indexUses counting = [] ∨ ∃ env, before = ⟨2,0,env⟩) :
    MetStep counting [countingLoop] Counts before after where
  isStep := counts
  meets := by
    rcases meets with none | ⟨env,rfl⟩
    · exact ⟨by simp [none],by simp [none],by simp [none]⟩
    · exact counting_meets
  unwrapped := by
    intro loop governing start exit governed _ _ _
    obtain ⟨_,_,rfl,_⟩ := counting_governed governed
    exact .inr rfl

theorem counting_header (less : env.insts 0 < 4) :
    Relation.ReflTransGen (MetStep counting [countingLoop] Counts) ⟨1,0,env⟩ ⟨2,0,env.set 1 1⟩ := by
  have compared := counting_step (.compare env) (.inl rfl)
  rw [if_pos less] at compared
  exact (Relation.ReflTransGen.single compared).tail (counting_step (.stay _ less) (.inl rfl))

theorem counting_iteration {i : Nat} (below : i < 4) : ∃ env, env.insts 0 = i ∧
    Relation.ReflTransGen (MetStep counting [countingLoop] Counts) ⟨0,0,zeros⟩ ⟨2,0,env⟩ := by
  induction i with
  | zero =>
    have entered := Relation.ReflTransGen.single (counting_step (.enter zeros) (.inl rfl))
    exact ⟨_,rfl,entered.trans (counting_header below)⟩
  | succ i ih =>
    obtain ⟨env,rfl,run⟩ := ih (Nat.lt_of_succ_lt below)
    let next := ((env.set 3 0).set 2 ((env.insts 0 + 1) % 2 ^ 64)).set 0 ((env.insts 0 + 1) % 2 ^ 64)
    have counted : next.insts 0 = env.insts 0 + 1 := Nat.mod_eq_of_lt (by omega)
    have body : Relation.ReflTransGen (MetStep counting [countingLoop] Counts) ⟨0,0,zeros⟩ ⟨1,0,next⟩ :=
      ((run.tail (counting_step (.read env) (.inr ⟨env,rfl⟩))).tail
        (counting_step (.add _) (.inl rfl))).tail (counting_step (.again _) (.inl rfl))
    have less : next.insts 0 < 4 := by omega
    exact ⟨next.set 1 1,counted,body.trans (counting_header less)⟩

end

theorem range_sound_counting : ∃ env : Env, env.insts 0 = 3 ∧ InRange counting [countingLoop] ⟨2,0,env⟩ := by
  obtain ⟨env,last,run⟩ := counting_iteration (i := 3) (by decide)
  refine ⟨env,last,range_sound counts_framed ?_ run counting_meets⟩
  intro loop governing start exit governed
  obtain ⟨rfl,rfl,rfl,rfl⟩ := counting_governed governed
  exact counting_facts

/-- A read at a constant. -/
def constantRead : Function := [⟨[],[(0,.indexRead (.argument 0) [.constantInt 5])],[]⟩]

theorem constantRead_not_sound : ¬ Sound constantRead [] (Step constantRead) := by
  intro sound
  have isUse : .constantInt 5 ∈ Config.indexUses constantRead ⟨0,0,zeros⟩ := by
    simp [Config.indexUses,constantRead,Inst.indexUses]
  exact not_inRange isUse (.inl ⟨5,rfl⟩) (sound zeros _ .refl)

end RangeAnalysis
end Memoir
