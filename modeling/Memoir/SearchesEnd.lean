import Memoir.UsePhis

/-! The searches for reaching definitions end: what is recorded for a variable is one of its versions,
and what is recorded for a version was made before it. -/
namespace Memoir.UsePhis
open Construction Dominance

def remade (n : Name) : Inst → Nat → Option Value
  | .mutIndexWrite _ object _,0 | .mutAssocWrite _ object _,0 | .indexRead object _,0
  | .assocRead object _,0 | .indexGet object _,0 | .assocGet object _,0 => some object
  | .mutSeqInsert _ collection _,0 | .mutSeqInsertSeq _ collection _,0
  | .mutSeqRemove collection _ _,0 | .mutSeqAppend collection _,1
  | .mutSeqSwapWithin collection _ _ _,0 | .mutSeqSplit collection _ _,1
  | .mutAssocInsert collection _,0 | .mutAssocRemove collection _,0 => some collection
  | .mutSeqSwap fromCollection _ _ _ _,1 => some fromCollection
  | .mutSeqSwap _ _ _ toCollection _,2 => some toCollection
  | .mutSeqSplit _ _ _,0 => some (.name n)
  | _,_ => none

def owner (function : Function) : Name → Option Value
  | .insertedPhi _ named => some (.name named)
  | .ssa block i k =>
    (function.instruction? (.inst block i)).bind fun inst => remade (.inst block i) inst k
  | _ => none

def Variable (function : Function) (value : Value) : Prop :=
  ∀ n,value = .name n → owner function n = none

def Mentioned (reaching : Reaching) (n : Name) : Prop :=
  ∃ entry ∈ reaching,entry.1 = .name n ∨ entry.2 = .name n

inductive Records (function : Function) (age : Name → Nat) : Value → Value → Prop
  | null {value : Value} : Records function age value .null
  | itself {n : Name} (isVariable : owner function n = none) :
    Records function age (.name n) (.name n)
  | version {value : Value} {n : Name} (isVariable : Variable function value)
    (made : owner function n = some value) : Records function age value (.name n)
  | back {w n : Name} (made : owner function w = some (.name n)) :
    Records function age (.name w) (.name n)
  | older {value : Value} {w n : Name} (made : owner function w = some value)
    (made' : owner function n = some value) (younger : age n < age w) :
    Records function age (.name w) (.name n)

structure Dated (function : Function) (age : Name → Nat) (now : Nat) (reaching : Reaching) : Prop where
  records : ∀ entry ∈ reaching,Records function age entry.1 entry.2
  past : ∀ n,owner function n ≠ none → Mentioned reaching n → age n < now

def Sound (function : Function) (reaching : Reaching) : Prop :=
  ∃ age now,Dated function age now reaching

section
variable {function : Function} {age : Name → Nat} {now : Nat} {reaching : Reaching} {value : Value}
  {w n : Name} {visible : Name → Bool} {named : Value}

theorem mentioned_set {key definition : Value} :
    Mentioned (setReachingDefinition reaching key definition) n ↔
      key = .name n ∨ definition = .name n ∨ Mentioned reaching n := by
  simp only [Mentioned,setReachingDefinition,List.mem_cons,exists_eq_or_imp,or_assoc]

def upTo (function : Function) (age : Name → Nat) (reaching : Reaching) (limit : Nat) : Nat :=
  reaching.countP fun entry =>
    match entry.1 with
    | .name n => (owner function n).isSome && age n ≤ limit
    | _ => false

theorem upTo_le_length (limit : Nat) : upTo function age reaching limit ≤ reaching.length :=
  List.countP_le_length

/-- A version that is recorded for another is among fewer entries. -/
theorem upTo_lt (made : owner function w = some value) {definition : Value}
    (recorded : (Value.name w,definition) ∈ reaching) {limit : Nat} (less : limit < age w) :
    upTo function age reaching limit < upTo function age reaching (age w) := by
  apply countP_lt
  · rintro ⟨key,_⟩ _ counted
    cases key with
    | name n =>
      simp only [Bool.and_eq_true,decide_eq_true_eq] at counted ⊢
      exact ⟨counted.1,Nat.le_trans counted.2 (Nat.le_of_lt less)⟩
    | constant _ | null => exact absurd counted (by simp)
  · refine ⟨_,recorded,?_,?_⟩
    · simp [made]
    · simp [less]

theorem upTo_lt_length (age : Name → Nat) (isVariable : Variable function value) {definition : Value}
    (recorded : (value,definition) ∈ reaching) (limit : Nat) :
    upTo function age reaching limit < reaching.length := by
  rw [← List.countP_true]
  apply countP_lt (fun _ _ _ => rfl)
  refine ⟨_,recorded,rfl,?_⟩
  cases value with
  | name n => simp [isVariable n rfl]
  | constant _ | null => rfl

/-- What a search that leads to a version finds. -/
inductive Finds (function : Function) (age : Name → Nat) (reaching : Reaching)
    (visible : Name → Bool) (named value : Value) (w : Name) : Value → Prop
  | null : Finds function age reaching visible named value w .null
  | back {n : Name} (same : value = .name n) :
    Finds function age reaching visible named value w (.name n)
  | version {n : Name} (made : owner function n = some value) (younger : age n < age w)
    (mentioned : Mentioned reaching n) (stops : visible n ∨ .name n = named) :
    Finds function age reaching visible named value w (.name n)

theorem chase_stops (found : reaching.lookup value = some (.name n))
    (stops : visible n ∨ .name n = named) (fuel : Nat) :
    chase visible reaching named (fuel + 1) value = some (.name n) := by
  rw [chase,found]
  rcases stops with isVisible | same
  · simp [isVisible]
  · simp [same]

theorem chase_version (visible : Name → Bool) (named : Value)
    (dated : Dated function age now reaching)
    (stops : ∀ n,value = .name n → visible n ∨ .name n = named) (made : owner function w = some value)
    {fuel : Nat} (enough : upTo function age reaching (age w) < fuel) :
    ∃ definition,chase visible reaching named fuel (.name w) = some definition ∧
      Finds function age reaching visible named value w definition := by
  induction fuel generalizing w with
  | zero => exact absurd enough (Nat.not_lt_zero _)
  | succ fuel ih =>
    cases found : reaching.lookup (.name w) with
    | none =>
      refine ⟨.null,?_,.null⟩
      rw [chase,found]
    | some definition =>
      have recorded := mem_of_lookup found
      cases dated.records _ recorded with
      | null =>
        refine ⟨.null,?_,.null⟩
        rw [chase,found]
      | itself isVariable => exact absurd (made.symm.trans isVariable) (by simp)
      | version isVariable _ => exact absurd (made.symm.trans (isVariable w rfl)) (by simp)
      | @back _ n made' =>
        obtain rfl := Option.some.inj (made.symm.trans made')
        exact ⟨_,chase_stops found (stops n rfl) fuel,.back rfl⟩
      | @older _ _ n made' isVersion younger =>
        obtain rfl := Option.some.inj (made.symm.trans made')
        have mentioned : Mentioned reaching n := ⟨_,recorded,.inr rfl⟩
        by_cases ends : visible n ∨ .name n = named
        · exact ⟨_,chase_stops found ends fuel,.version isVersion younger mentioned ends⟩
        · have fewer := upTo_lt made recorded younger
          obtain ⟨result,chased,finds⟩ := ih isVersion (by omega)
          refine ⟨result,?_,?_⟩
          · rw [chase,found]
            simp only [Bool.or_eq_true,decide_eq_true_eq,ends,if_false]
            exact chased
          · cases finds with
            | null => exact .null
            | back same => exact .back same
            | version made lower mentioned stops =>
              exact .version made (Nat.lt_trans lower younger) mentioned stops

inductive Found (function : Function) (reaching : Reaching) (visible : Name → Bool) (value : Value) :
    Value → Prop
  | null : Found function reaching visible value .null
  | itself {n : Name} (same : value = .name n) : Found function reaching visible value (.name n)
  | version {n : Name} (made : owner function n = some value) (mentioned : Mentioned reaching n)
    (isVisible : visible n) : Found function reaching visible value (.name n)

theorem chase_variable (dated : Dated function age now reaching)
    (isVariable : Variable function named) :
    ∃ definition,chase visible reaching named (reaching.length + 1) named = some definition ∧
      Found function reaching visible named definition := by
  have isVisible : ∀ {n},owner function n = some named → visible n ∨ .name n = named → visible n := by
    intro n made stops
    refine stops.resolve_right fun same => ?_
    exact absurd (made.symm.trans (isVariable n same.symm)) (by simp)
  cases found : reaching.lookup named with
  | none =>
    refine ⟨.null,?_,.null⟩
    rw [chase,found]
  | some definition =>
    have recorded := mem_of_lookup found
    cases dated.records _ recorded with
    | null =>
      refine ⟨.null,?_,.null⟩
      rw [chase,found]
    | @itself n _ => exact ⟨_,chase_stops found (.inr rfl) _,.itself rfl⟩
    | back made => exact absurd (made.symm.trans (isVariable _ rfl)) (by simp)
    | older made _ _ => exact absurd (made.symm.trans (isVariable _ rfl)) (by simp)
    | @version _ n _ made =>
      have mentioned : Mentioned reaching n := ⟨_,recorded,.inr rfl⟩
      by_cases ends : visible n ∨ .name n = named
      · exact ⟨_,chase_stops found ends _,.version made mentioned (isVisible made ends)⟩
      · have enough := upTo_lt_length age isVariable recorded (age n)
        obtain ⟨result,chased,finds⟩ :=
          chase_version visible named dated (fun n same => .inr same.symm) made enough
        refine ⟨result,?_,?_⟩
        · rw [chase,found]
          simp only [Bool.or_eq_true,decide_eq_true_eq,ends,if_false]
          exact chased
        · cases finds with
          | null => exact .null
          | back same => exact .itself same
          | version made _ mentioned stops => exact .version made mentioned (isVisible made stops)

end

/-- A run keeps what is mentioned, and makes no versions but its own. -/
structure Adds (function : Function) (makes : Name → Prop) (before after : Reaching) : Prop where
  sound : Sound function after
  kept : ∀ n,Mentioned before n → Mentioned after n
  made : ∀ n,owner function n ≠ none → Mentioned after n → Mentioned before n ∨ makes n

section
variable {function : Function} {makes : Name → Prop} {reaching before after : Reaching}
  {visible : Name → Bool} {value definition : Value} {n : Name} {age age' : Name → Nat}

theorem Adds.refl (sound : Sound function reaching) : Adds function makes reaching reaching :=
  ⟨sound,fun _ => id,fun _ _ => .inl⟩

theorem Adds.trans (first : Adds function makes reaching before)
    (second : Adds function makes before after) : Adds function makes reaching after := by
  refine ⟨second.sound,fun n mentioned => second.kept n (first.kept n mentioned),?_⟩
  intro n isVersion mentioned
  rcases second.made n isVersion mentioned with mentioned | made
  · exact first.made n isVersion mentioned
  · exact .inr made

theorem Found.mono (found : Found function before visible value definition)
    (kept : ∀ n,Mentioned before n → Mentioned after n) :
    Found function after visible value definition := by
  cases found with
  | null => exact .null
  | itself same => exact .itself same
  | version made mentioned isVisible => exact .version made (kept _ mentioned) isVisible

theorem Records.congr {key : Value} (records : Records function age key definition)
    (same : ∀ n,.name n = key ∨ .name n = definition → age' n = age n) :
    Records function age' key definition := by
  cases records with
  | null => exact .null
  | itself isVariable => exact .itself isVariable
  | version isVariable made => exact .version isVariable made
  | back made => exact .back made
  | older made made' younger =>
    refine .older made made' ?_
    rw [same _ (.inl rfl),same _ (.inr rfl)]
    exact younger

/-- What is found for a variable is recorded for it. -/
theorem Adds.found (sound : Sound function reaching) (isVariable : Variable function value)
    (found : Found function reaching visible value definition) :
    Adds function makes reaching (setReachingDefinition reaching value definition) := by
  obtain ⟨age,now,dated⟩ := sound
  have old : ∀ n,owner function n ≠ none →
      Mentioned (setReachingDefinition reaching value definition) n → Mentioned reaching n := by
    intro n isVersion mentioned
    rcases mentioned_set.mp mentioned with same | same | mentioned
    · exact absurd (isVariable n same) isVersion
    · cases found with
      | null => exact absurd same (by simp)
      | itself same' => exact absurd (isVariable n (same'.trans same)) isVersion
      | version _ earlier _ => exact Value.name.inj same ▸ earlier
    · exact mentioned
  refine ⟨⟨age,now,?_,fun n isVersion mentioned => dated.past n isVersion (old n isVersion mentioned)⟩,
    fun n mentioned => mentioned_set.mpr (.inr (.inr mentioned)),
    fun n isVersion mentioned => .inl (old n isVersion mentioned)⟩
  intro entry member
  rcases List.mem_cons.mp member with rfl | member
  · cases found with
    | null => exact .null
    | itself same =>
      subst same
      exact .itself (isVariable _ rfl)
    | version made _ _ => exact .version isVariable made
  · exact dated.records entry member

/-- A version that has no entry of its own. -/
theorem Adds.name (sound : Sound function reaching) (isVariable : Variable function value)
    (isMade : owner function n = some value) (makes_n : makes n) :
    Adds function makes reaching (setReachingDefinition reaching value (.name n)) := by
  obtain ⟨age,now,dated⟩ := sound
  refine ⟨⟨age,max now (age n + 1),?_,?_⟩,fun n mentioned => mentioned_set.mpr (.inr (.inr mentioned)),?_⟩
  · intro entry member
    rcases List.mem_cons.mp member with rfl | member
    · exact .version isVariable isMade
    · exact dated.records entry member
  · intro m isVersion mentioned
    rcases mentioned_set.mp mentioned with same | same | mentioned
    · exact absurd (isVariable m same) isVersion
    · obtain rfl := Value.name.inj same
      omega
    · have past := dated.past m isVersion mentioned
      omega
  · intro m isVersion mentioned
    rcases mentioned_set.mp mentioned with same | same | mentioned
    · exact absurd (isVariable m same) isVersion
    · exact .inr (Value.name.inj same ▸ makes_n)
    · exact .inl mentioned

/-- What is found for a version is recorded for it. -/
theorem Adds.again {now : Nat} {w : Name} {named : Value} (dated : Dated function age now reaching)
    (isVariable : Variable function named) (made : owner function w = some named)
    (mentioned : Mentioned reaching w)
    (finds : Finds function age reaching visible (.name w) named w definition) :
    Adds function makes reaching (setReachingDefinition reaching (.name w) definition) := by
  have old : ∀ n,owner function n ≠ none →
      Mentioned (setReachingDefinition reaching (.name w) definition) n → Mentioned reaching n := by
    intro n isVersion isMentioned
    rcases mentioned_set.mp isMentioned with same | same | earlier
    · exact Value.name.inj same ▸ mentioned
    · cases finds with
      | null => exact absurd same (by simp)
      | back same' => exact absurd (isVariable n (same'.trans same)) isVersion
      | version _ _ earlier _ => exact Value.name.inj same ▸ earlier
    · exact earlier
  refine ⟨⟨age,now,?_,fun n isVersion mentioned => dated.past n isVersion (old n isVersion mentioned)⟩,
    fun n mentioned => mentioned_set.mpr (.inr (.inr mentioned)),
    fun n isVersion mentioned => .inl (old n isVersion mentioned)⟩
  intro entry member
  rcases List.mem_cons.mp member with rfl | member
  · cases finds with
    | null => exact .null
    | back same => exact .back (made.trans (congrArg some same))
    | version made' younger _ _ => exact .older made made' younger
  · exact dated.records entry member

/-- A new version of a variable, made from what was found for it. -/
theorem Adds.version (sound : Sound function reaching) (isVariable : Variable function value)
    (isMade : owner function n = some value) (new : ¬ Mentioned reaching n) (makes_n : makes n)
    (found : Found function reaching visible value definition) :
    Adds function makes reaching (setReachingDefinition
      (setReachingDefinition reaching value (.name n)) (.name n) definition) := by
  obtain ⟨age,now,dated⟩ := sound
  have isMentioned : ∀ m,owner function m ≠ none →
      Mentioned (setReachingDefinition (setReachingDefinition reaching value (.name n)) (.name n)
        definition) m → m = n ∨ Mentioned reaching m := by
    intro m isVersion mentioned
    rcases mentioned_set.mp mentioned with same | same | mentioned
    · exact .inl (Value.name.inj same).symm
    · cases found with
      | null => exact absurd same (by simp)
      | itself same' => exact absurd (isVariable m (same'.trans same)) isVersion
      | version _ earlier _ => exact .inr (Value.name.inj same ▸ earlier)
    · rcases mentioned_set.mp mentioned with same | same | mentioned
      · exact absurd (isVariable m same) isVersion
      · exact .inl (Value.name.inj same).symm
      · exact .inr mentioned
  have aged : ∀ m,Mentioned reaching m → Function.update age n now m = age m := by
    intro m mentioned
    apply Function.update_of_ne
    rintro rfl
    exact new mentioned
  refine ⟨⟨Function.update age n now,now + 1,?_,?_⟩,fun m mentioned => ?_,?_⟩
  · intro entry member
    rcases List.mem_cons.mp member with rfl | member
    · cases found with
      | null => exact .null
      | itself same => exact .back (isMade.trans (congrArg some same))
      | @version m made mentioned _ =>
        refine .older isMade made ?_
        rw [aged m mentioned,Function.update_self]
        exact dated.past m (by simp [made]) mentioned
    · rcases List.mem_cons.mp member with rfl | member
      · exact .version isVariable isMade
      · apply (dated.records entry member).congr
        exact fun m same => aged m ⟨entry,member,same.imp Eq.symm Eq.symm⟩
  · intro m isVersion mentioned
    rcases isMentioned m isVersion mentioned with rfl | mentioned
    · rw [Function.update_self]
      exact Nat.lt_succ_self now
    · rw [aged m mentioned]
      exact Nat.lt_succ_of_lt (dated.past m isVersion mentioned)
  · exact mentioned_set.mpr (.inr (.inr (mentioned_set.mpr (.inr (.inr mentioned)))))
  · intro m isVersion mentioned
    rcases isMentioned m isVersion mentioned with rfl | mentioned
    · exact .inr makes_n
    · exact .inl mentioned

end

section
variable {function : Function} {tree : Tree function} {makes makes' : Name → Prop}
  {start reaching : Reaching} {visible : Name → Bool} {value definition : Value} {n : Name}

theorem Adds.weaken (adds : Adds function makes start reaching) (implies : ∀ n,makes n → makes' n) :
    Adds function makes' start reaching :=
  ⟨adds.sound,adds.kept,fun n isVersion mentioned =>
    (adds.made n isVersion mentioned).imp_right (implies n)⟩

theorem Adds.search (adds : Adds function makes start reaching) (tree : Tree function)
    (isVariable : Variable function value) (point : Point) :
    ∃ definition,updateReachingDefinition tree reaching value point =
        some (setReachingDefinition reaching value definition,definition) ∧
      Found function (setReachingDefinition reaching value definition) (dominates tree · point) value
        definition ∧
      Adds function makes start (setReachingDefinition reaching value definition) := by
  obtain ⟨age,now,dated⟩ := adds.sound
  obtain ⟨definition,chased,found⟩ := chase_variable dated isVariable
  have searched : updateReachingDefinition tree reaching value point =
      some (setReachingDefinition reaching value definition,definition) := by
    rw [updateReachingDefinition,chased]
    rfl
  have next : Adds function makes reaching (setReachingDefinition reaching value definition) :=
    .found adds.sound isVariable found
  exact ⟨definition,searched,found.mono next.kept,adds.trans next⟩

theorem Adds.remake (adds : Adds function makes start reaching) (isVariable : Variable function value)
    (isMade : owner function n = some value) (new : ¬ Mentioned start n) (notMade : ¬ makes n)
    (found : Found function reaching visible value definition) :
    Adds function (fun m => makes m ∨ m = n) start (setReachingDefinition
      (setReachingDefinition reaching value (.name n)) (.name n) definition) := by
  have unmentioned : ¬ Mentioned reaching n := fun mentioned =>
    (adds.made n (by simp [isMade]) mentioned).elim new notMade
  exact (adds.weaken fun _ => .inl).trans
    (.version adds.sound isVariable isMade unmentioned (.inr rfl) found)

/-- The versions that the visit of an instruction makes. -/
abbrev Made (block i : Nat) (n : Name) : Prop := ∃ k,n = .ssa block i k

def Ran (function : Function) (makes : Name → Prop) (start : Reaching) (run : Option Reaching) : Prop :=
  ∃ after,run = some after ∧ Adds function makes start after

variable {block i : Nat} {collection : Value} (sound : Sound function start)
  (new : ∀ k,owner function (.ssa block i k) ≠ none → ¬ Mentioned start (.ssa block i k))
include sound new

theorem ran_visitMut (isVariable : Variable function collection)
    (isMade : owner function (.ssa block i 0) = some collection) (build : Value → Inst) :
    Ran function (Made block i) start
      ((visitMut tree start block i collection build).map Prod.fst) := by
  have adds : Adds function (fun _ => False) start start := .refl sound
  obtain ⟨definition,searched,found,adds⟩ := adds.search tree isVariable (.before block i)
  have adds := adds.remake isVariable isMade (new 0 (by simp [isMade])) id found
  refine ⟨_,?_,adds.weaken fun n made => ⟨0,made.resolve_left id⟩⟩
  rw [visitMut,searched]
  rfl

theorem ran_visitAccess (usePhis : Bool) (isVariable : Variable function collection)
    (isMade : owner function (.ssa block i 0) = some collection) :
    Ran function (Made block i) start (visitAccess usePhis tree start block i collection) := by
  have adds : Adds function (fun _ => False) start start := .refl sound
  obtain ⟨definition,searched,found,adds⟩ := adds.search tree isVariable (.before block i)
  rw [visitAccess,searched]
  cases usePhis with
  | false => exact ⟨_,rfl,adds.weaken fun n made => made.elim⟩
  | true =>
    have adds := adds.remake isVariable isMade (new 0 (by simp [isMade])) id found
    exact ⟨_,rfl,adds.weaken fun n made => ⟨0,made.resolve_left id⟩⟩

/-- The insertion of a collection and the append, which differ in the order of the operands and in
where the new version is. -/
theorem ran_pair {other : Value} {k : Nat} (isVariable : Variable function collection)
    (isVariable' : Variable function other)
    (isMade : owner function (.ssa block i k) = some collection)
    (build : Value → Value → List (Name × Inst)) :
    Ran function (Made block i) start (Option.map Prod.fst (do
      let (reaching,base) ← updateReachingDefinition tree start collection (.before block i)
      let (reaching,insert) ← updateReachingDefinition tree reaching other (.before block i)
      let result := Value.name (.ssa block i k)
      let reaching := setReachingDefinition reaching collection result
      return (setReachingDefinition reaching result base,build base insert))) := by
  have adds : Adds function (fun _ => False) start start := .refl sound
  obtain ⟨definition,searched,found,adds⟩ := adds.search tree isVariable (.before block i)
  obtain ⟨definition',searched',_,adds'⟩ := adds.search tree isVariable' (.before block i)
  have kept : ∀ n,Mentioned (setReachingDefinition start collection definition) n → Mentioned
      (setReachingDefinition (setReachingDefinition start collection definition) other definition')
      n := fun n mentioned => mentioned_set.mpr (.inr (.inr mentioned))
  have adds := adds'.remake isVariable isMade (new k (by simp [isMade])) id (found.mono kept)
  refine ⟨_,?_,adds.weaken fun n made => ⟨k,made.resolve_left id⟩⟩
  simp only [searched,Option.bind_eq_bind,Option.bind_some,searched']
  rfl

theorem ran_visitMutSeqSwapInst {toCollection : Value} (first last toFirst : Scalar)
    (isVariable : Variable function collection) (isVariable' : Variable function toCollection)
    (isMade : owner function (.ssa block i 1) = some collection)
    (isMade' : owner function (.ssa block i 2) = some toCollection) :
    Ran function (Made block i) start ((visitMutSeqSwapInst tree start block i collection first last
      toCollection toFirst).map Prod.fst) := by
  have adds : Adds function (fun _ => False) start start := .refl sound
  obtain ⟨definition,searched,found,adds⟩ := adds.search tree isVariable (.before block i)
  obtain ⟨definition',searched',found',adds'⟩ := adds.search tree isVariable' (.before block i)
  have kept : ∀ {reaching key definition} n,Mentioned reaching n →
      Mentioned (setReachingDefinition reaching key definition) n :=
    fun n mentioned => mentioned_set.mpr (.inr (.inr mentioned))
  have adds := adds'.remake isVariable isMade (new 1 (by simp [isMade])) id (found.mono kept)
  have adds := adds.remake isVariable' isMade' (new 2 (by simp [isMade'])) (by simp)
    ((found'.mono kept).mono kept)
  refine ⟨_,?_,adds.weaken ?_⟩
  · simp only [visitMutSeqSwapInst,searched,Option.bind_eq_bind,Option.bind_some,searched']
    rfl
  · rintro n ((none | rfl) | rfl)
    · exact none.elim
    · exact ⟨1,rfl⟩
    · exact ⟨2,rfl⟩

theorem ran_visitMutSeqSplitInst {n : Name} (first last : Scalar)
    (isVariable : Variable function collection) (isVariable' : Variable function (.name n))
    (isMade : owner function (.ssa block i 0) = some (.name n))
    (isMade' : owner function (.ssa block i 1) = some collection) :
    Ran function (Made block i) start
      ((visitMutSeqSplitInst tree start block i n collection first last).map Prod.fst) := by
  have adds : Adds function (fun _ => False) start start := .refl sound
  obtain ⟨definition,searched,found,adds⟩ := adds.search tree isVariable (.before block i)
  have kept : ∀ {reaching key definition} n,Mentioned reaching n →
      Mentioned (setReachingDefinition reaching key definition) n :=
    fun n mentioned => mentioned_set.mpr (.inr (.inr mentioned))
  have adds' := (adds.weaken fun _ => False.elim).trans
    (.name adds.sound isVariable' isMade (rfl : Name.ssa block i 0 = .ssa block i 0))
  have adds := adds'.remake isVariable isMade' (new 1 (by simp [isMade'])) (by simp) (found.mono kept)
  refine ⟨_,?_,adds.weaken ?_⟩
  · simp only [visitMutSeqSplitInst,searched,Option.bind_eq_bind,Option.bind_some]
    rfl
  · rintro n (rfl | rfl)
    · exact ⟨0,rfl⟩
    · exact ⟨1,rfl⟩

omit new in
/-- A has, unless a version of its object dominates it. -/
theorem ran_visitAssocHasInst (usePhis : Bool) (isVariable : Variable function collection)
    (plain : usePhis → ∀ n,owner function n = some collection → Mentioned start n →
      dominates tree n (.before block i) = false) :
    Ran function (Made block i) start (visitAssocHasInst usePhis tree start block i collection) := by
  cases usePhis with
  | false => exact ⟨start,rfl,.refl sound⟩
  | true =>
    have adds : Adds function (fun _ => False) start start := .refl sound
    obtain ⟨definition,searched,found,adds⟩ := adds.search tree isVariable (.before block i)
    have itself : Variable function definition ∧ ∀ reaching,
        Found function reaching (dominates tree · (.before block i)) definition definition := by
      cases found with
      | null => exact ⟨fun n same => absurd same (by simp),fun _ => .null⟩
      | itself same => exact ⟨same ▸ isVariable,fun _ => .itself rfl⟩
      | @version n made mentioned isVisible =>
        have earlier := (adds.made n (by simp [made]) mentioned).resolve_right id
        exact absurd isVisible (by simp [plain rfl n made earlier])
    have adds := adds.trans (.found adds.sound isVariable found)
    have adds := adds.trans (.found adds.sound itself.1 (itself.2 _))
    refine ⟨_,?_,adds.weaken fun n made => made.elim⟩
    simp only [visitAssocHasInst,searched,if_true]
    rfl

omit new in
theorem ran_renameOperands (makes : Name → Prop) (tree : Tree function) (point : Point)
    {operands : List Value}
    (originals : ∀ operand ∈ operands,Variable function operand) :
    Ran function makes start ((renameOperands tree point start operands).map Prod.fst) := by
  induction operands generalizing start with
  | nil => exact ⟨start,rfl,.refl sound⟩
  | cons operand operands ih =>
    have originals' := fun other member => originals other (List.mem_cons_of_mem operand member)
    cases operand with
    | name n =>
      have adds : Adds function makes start start := .refl sound
      obtain ⟨definition,searched,_,adds⟩ := adds.search tree (originals _ List.mem_cons_self) point
      obtain ⟨after,ran,adds'⟩ := ih adds.sound originals'
      obtain ⟨result,renamed,rfl⟩ := Option.map_eq_some_iff.mp ran
      refine ⟨result.1,?_,adds.trans adds'⟩
      simp only [renameOperands,searched,renamed,Option.bind_eq_bind,Option.bind_some]
      rfl
    | constant _ | null =>
      obtain ⟨after,ran,adds⟩ := ih sound originals'
      obtain ⟨result,renamed,rfl⟩ := Option.map_eq_some_iff.mp ran
      refine ⟨result.1,?_,adds⟩
      simp only [renameOperands,renamed,Option.bind_eq_bind,Option.bind_some]
      rfl

omit new in
theorem ran_visitInstruction {operands : List Value} (isVariable : Variable function (.name n))
    (originals : ∀ operand ∈ operands,Variable function operand) (build : List Value → Inst) :
    Ran function makes start
      ((visitInstruction tree start block i n operands build).map Prod.fst) := by
  obtain ⟨after,ran,adds⟩ :=
    ran_renameOperands sound makes tree (.before block i) originals
  obtain ⟨result,renamed,rfl⟩ := Option.map_eq_some_iff.mp ran
  have itself : Adds function makes result.1
      (setReachingDefinition result.1 (.name n) (.name n)) :=
    .found adds.sound isVariable (.itself rfl : Found function result.1 (fun _ => true) _ _)
  cases isCollection : function.valueIsCollectionType n with
  | false =>
    refine ⟨_,?_,adds⟩
    simp [visitInstruction,renamed,isCollection]
  | true =>
    refine ⟨_,?_,adds.trans itself⟩
    simp [visitInstruction,renamed,isCollection]

omit sound new in
theorem owner_ssa {inst : Inst} (at_ : function.instruction? (.inst block i) = some inst) (k : Nat) :
    owner function (.ssa block i k) = remade (.inst block i) inst k := by
  rw [owner,at_]
  rfl

theorem ran_visit (usePhis : Bool) {inst : Inst}
    (at_ : function.instruction? (.inst block i) = some inst)
    (originals : ∀ operand ∈ inst.operands,Variable function operand)
    (plain : ∀ object key,inst = .assocHas object key → usePhis → ∀ n,owner function n = some object →
      Mentioned start n → dominates tree n (.before block i) = false) :
    Ran function (Made block i) start (visit usePhis tree start block i (.inst block i) inst) := by
  have isVariable : Variable function (.name (.inst block i)) := by
    intro n same
    obtain rfl := Value.name.inj same
    rfl
  have made := owner_ssa at_
  cases inst with
  | mutIndexWrite value object index =>
    exact ran_visitMut sound new (originals object (by simp [Inst.operands,Inst.mutated])) (made 0)
      (.indexWrite value · index)
  | mutAssocWrite value object key =>
    exact ran_visitMut sound new (originals object (by simp [Inst.operands,Inst.mutated])) (made 0)
      (.assocWrite value · key)
  | mutSeqInsert value collection index =>
    exact ran_visitMut sound new (originals collection (by simp [Inst.operands,Inst.mutated])) (made 0)
      (.seqInsert value · index)
  | mutSeqInsertSeq inserted collection index =>
    exact ran_pair sound new (originals collection (by simp [Inst.operands,Inst.mutated]))
      (originals inserted (by simp [Inst.operands,Inst.read])) (made 0) fun base insert =>
        [(.ssa block i 0,.seqInsertSeq insert base index)]
  | mutSeqRemove collection first last =>
    exact ran_visitMut sound new (originals collection (by simp [Inst.operands,Inst.mutated])) (made 0)
      (.seqRemove · first last)
  | mutSeqAppend collection appended =>
    exact ran_pair sound new (originals collection (by simp [Inst.operands,Inst.mutated]))
      (originals appended (by simp [Inst.operands,Inst.read])) (made 1) fun base append =>
        [(.ssa block i 0,.endInst),(.ssa block i 1,.seqInsertSeq append base (.name (.ssa block i 0)))]
  | mutSeqSwap fromCollection first last toCollection toFirst =>
    exact ran_visitMutSeqSwapInst sound new first last toFirst
      (originals fromCollection (by simp [Inst.operands,Inst.mutated]))
      (originals toCollection (by simp [Inst.operands,Inst.mutated])) (made 1) (made 2)
  | mutSeqSwapWithin collection first last toFirst =>
    exact ran_visitMut sound new (originals collection (by simp [Inst.operands,Inst.mutated])) (made 0)
      (.seqSwapWithin · first last toFirst)
  | mutSeqSplit collection first last =>
    exact ran_visitMutSeqSplitInst sound new first last
      (originals collection (by simp [Inst.operands,Inst.mutated])) isVariable (made 0) (made 1)
  | mutAssocInsert collection key =>
    exact ran_visitMut sound new (originals collection (by simp [Inst.operands,Inst.mutated])) (made 0)
      (.assocInsert · key)
  | mutAssocRemove collection key =>
    exact ran_visitMut sound new (originals collection (by simp [Inst.operands,Inst.mutated])) (made 0)
      (.assocRemove · key)
  | indexRead object index =>
    exact ran_visitAccess sound new usePhis (originals object (by simp [Inst.operands,Inst.read])) (made 0)
  | assocRead object key =>
    exact ran_visitAccess sound new usePhis (originals object (by simp [Inst.operands,Inst.mutated])) (made 0)
  | indexGet object index =>
    exact ran_visitAccess sound new usePhis (originals object (by simp [Inst.operands,Inst.read])) (made 0)
  | assocGet object key =>
    exact ran_visitAccess sound new usePhis (originals object (by simp [Inst.operands,Inst.mutated])) (made 0)
  | assocHas object key =>
    exact ran_visitAssocHasInst sound usePhis (originals object (by simp [Inst.operands,Inst.read]))
      (plain object key rfl)
  | size collection =>
    simp only [visit,Construction.visit]
    apply ran_visitInstruction sound isVariable
    intro operand member
    exact originals operand (by simpa [Inst.operands,Inst.read,Inst.mutated,Inst.element] using member)
  | assocKeys collection =>
    simp only [visit,Construction.visit]
    apply ran_visitInstruction sound isVariable
    intro operand member
    exact originals operand (by simpa [Inst.operands,Inst.read,Inst.mutated,Inst.element] using member)
  | call callee collections scalars =>
    simp only [visit,Construction.visit]
    apply ran_visitInstruction sound isVariable
    intro operand member
    exact originals operand (by simpa [Inst.operands,Inst.read,Inst.mutated,Inst.element] using member)
  | _ =>
    simp only [visit,Construction.visit]
    apply ran_visitInstruction sound isVariable
    exact fun operand none => absurd none List.not_mem_nil

end

end Memoir.UsePhis
