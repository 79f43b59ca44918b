import Memoir.TypeAnalysisEnds

/-! What a query that returns says about the module. Where no walk comes back to a value within a query,
it has gone through all that the value depends on, so that nothing needs what depends on it. -/
namespace Memoir.TypeAnalysis
open TypeGetters Outcomes

/-- The operands of these are analysed by queries of their own. -/
def Kind.asks : Kind → Bool
  | .referenceType _ | .staticTensorType _ _ | .tensorType _ _ | .assocArrayType _ _ | .sequenceType _
  | .read _ | .structRead _ _ | .get _ | .structGet _ _ => true
  | _ => false

def Kind.isOpaque : Kind → Bool
  | .argument | .other => true
  | _ => false

def Walks (module : Module) (value operand : Value) : Prop :=
  DependsOn module value operand ∧ (module.kind value).asks = false

/-- Something on a cycle of the value needs what depends on it. -/
def Cyclic (module : Module) (value : Value) : Prop :=
  ∃ first other,Needs module first other ∧ Depends module other first ∧ Depends module value first ∧
    Depends module first value

/-- A query that gets to no swaps, that comes back to a value of such a cycle only by a query of its own,
and that gets to assertions only of values that have no type otherwise. -/
structure Straight (module : Module) (query : Value) : Prop where
  loopless : ∀ value,Depends module query value → Cyclic module value →
    ¬ Relation.TransGen (Walks module) value value
  swapless : ∀ value,Depends module query value → (module.kind value).isSwap = false
  asserted : ∀ value,Depends module query value → ¬ Definite module value →
    module.assertion value ≠ none → (module.kind value).isOpaque

def Turns (module : Module) (value operand : Value) : Prop :=
  DependsOn module value operand ∧ Cyclic module value ∧ Depends module operand value

def Unturned (module : Module) (value : Value) : Prop :=
  Acc (fun operand value => Turns module value operand) value

def Below (above : Value → Prop) (value other : Value) : Prop := above other ∨ other = value

def Finished (module : Module) (above : Value → Prop) (value : Value) : Prop :=
  ∃ closed : Value → Prop,closed value ∧ ∀ other,closed other → Unturned module other ∧
    ∀ operand,DependsOn module other operand → closed operand ∨ above operand

def Kind.reads : Kind → List Value
  | .load (some (first :: _)) => [first]
  | kind => if kind.isTypeInst then kind.types else if kind.isDefinite then kind.needed else kind.followed

section Finished
variable {module : Module} {above above' : Value → Prop} {value operand : Value}

theorem irreflexive_of_acc {α : Type} {r : α → α → Prop} {a : α} (acc : Acc r a) : ¬ r a a := by
  induction acc with
  | intro a _ ih => exact fun loop => ih a loop loop

theorem turns_of_needs (needs : Needs module value operand) (back : Depends module operand value) :
    Relation.TransGen (Turns module) value value := by
  have cyclic : ∀ {other},Depends module other value → Depends module value other → Cyclic module other :=
    fun home away => ⟨value,operand,needs,back,home,away⟩
  have along : ∀ {start},Depends module start value → Depends module value start →
      Relation.ReflTransGen (Turns module) start value := by
    intro start home
    induction home using Relation.ReflTransGen.head_induction_on with
    | refl => exact fun _ => .refl
    | @head start next step home ih =>
      intro away
      exact .head ⟨step,cyclic (home.head step) away,home.trans away⟩ (ih (away.tail step))
  exact .head' ⟨.inl needs,cyclic .refl .refl,back⟩ (along back (.single (.inl needs)))

/-- The edges of a definite value are needed. -/
theorem needs_of_definite (definite : Definite module value) (step : DependsOn module value operand) :
    Needs module value operand := by
  rcases step with needs | follows
  · exact needs
  · rcases definite with isType | definite
    · cases follows with
      | operand member _ =>
        cases isType with
        | instruction isType =>
          revert isType member
          cases module.kind value <;> simp [Kind.isTypeInst,Kind.followed]
        | load isLoad _ =>
          rw [isLoad] at member
          exact absurd member List.not_mem_nil
      | load isLoad object =>
        cases isType with
        | instruction isType =>
          rw [isLoad] at isType
          exact absurd isType (by simp [Kind.isTypeInst])
        | load isLoad' stored =>
          rw [isLoad] at isLoad'
          obtain ⟨rfl,_⟩ := List.cons.inj (Option.some.inj (Kind.load.inj isLoad'))
          exact absurd stored object
      | asserted indefinite _ => exact absurd (.inl isType) indefinite
    · refine .operand definite ?_
      cases follows with
      | operand member _ =>
        revert definite member
        cases module.kind value with
        | call returnsPointer callee => cases returnsPointer <;> simp [Kind.isDefinite,Kind.followed,Kind.needed]
        | _ => simp [Kind.isDefinite,Kind.followed]
      | load isLoad _ =>
        rw [isLoad] at definite
        exact absurd definite (by simp [Kind.isDefinite])
      | asserted indefinite _ => exact absurd (.inr definite) indefinite

theorem Finished.unturned (finished : Finished module above value) : Unturned module value := by
  obtain ⟨closed,isClosed,closes⟩ := finished
  exact (closes value isClosed).1

theorem Finished.mono (finished : Finished module above value)
    (implies : ∀ other,above other → above' other) : Finished module above' value := by
  obtain ⟨closed,isClosed,closes⟩ := finished
  exact ⟨closed,isClosed,fun other isClosed => ⟨(closes other isClosed).1,
    fun operand step => ((closes other isClosed).2 operand step).imp_right (implies operand)⟩⟩

/-- An open value is closed. -/
theorem Finished.close {open' : Value} (finished : Finished module (Below above open') value)
    (closing : Finished module above open') : Finished module above value := by
  obtain ⟨closed,isClosed,closes⟩ := finished
  obtain ⟨closed',isClosed',closes'⟩ := closing
  refine ⟨fun other => closed other ∨ closed' other,.inl isClosed,?_⟩
  rintro other (isClosed | isClosed)
  · refine ⟨(closes other isClosed).1,fun operand step => ?_⟩
    rcases (closes other isClosed).2 operand step with isClosed | isAbove | rfl
    · exact .inl (.inl isClosed)
    · exact .inr isAbove
    · exact .inl (.inr isClosed')
  · exact ⟨(closes' other isClosed).1,fun operand step => ((closes' other isClosed).2 operand step).imp_left .inr⟩

/-- A value whose operands are finished, but for open ones. -/
theorem finished_of_operands (unturned : Unturned module value)
    (operands : ∀ operand,DependsOn module value operand →
      Finished module (Below above value) operand ∨ Below above value operand) :
    Finished module above value := by
  refine ⟨fun other => Finished module (Below above value) other ∨ other = value,.inr rfl,?_⟩
  have leads : ∀ operand,Finished module (Below above value) operand ∨ Below above value operand →
      (Finished module (Below above value) operand ∨ operand = value) ∨ above operand := by
    rintro operand (finished | isAbove | same)
    · exact .inl (.inl finished)
    · exact .inr isAbove
    · exact .inl (.inr same)
  rintro other (⟨closed,isClosed,closes⟩ | rfl)
  · refine ⟨(closes other isClosed).1,fun operand step => leads operand ?_⟩
    exact ((closes other isClosed).2 operand step).imp_left fun isClosed => ⟨closed,isClosed,closes⟩
  · exact ⟨unturned,fun operand step => leads operand (operands operand step)⟩

theorem Finished.acyclic (finished : Finished module (fun _ => False) value) : Acyclic module value := by
  obtain ⟨closed,isClosed,closes⟩ := finished
  intro first other path needs cycle
  have all : ∀ other,Depends module value other → closed other := by
    intro other path
    induction path with
    | refl => exact isClosed
    | tail _ step ih => exact ((closes _ ih).2 _ step).resolve_right id
  have loop := Relation.transGen_swap.mpr (turns_of_needs needs cycle)
  exact irreflexive_of_acc (closes first (all first path)).1.transGen loop

theorem Straight.depends (straight : Straight module value) (depends : Depends module value operand) :
    Straight module operand :=
  ⟨fun other path => straight.loopless other (depends.trans path),
    fun other path => straight.swapless other (depends.trans path),
    fun other path => straight.asserted other (depends.trans path)⟩

theorem follows_of_member (straight : Straight module value)
    (member : operand ∈ (module.kind value).followed) : Follows module value operand := by
  refine .operand member ?_
  have swapless := straight.swapless value .refl
  rintro ⟨isSwap | isSwap,_,_⟩
  · exact absurd swapless (by simp [isSwap,Kind.isSwap])
  · exact absurd swapless (by simp [isSwap,Kind.isSwap])

theorem Straight.dependsOn (straight : Straight module value)
    (member : operand ∈ (module.kind value).reads) : DependsOn module value operand := by
  by_cases isLoad : ∃ first rest,module.kind value = .load (some (first :: rest))
  · obtain ⟨first,rest,isLoad⟩ := isLoad
    rw [isLoad] at member
    obtain rfl := List.mem_singleton.mp member
    by_cases stored : TypeValue module operand
    · exact .inl (.part (.load isLoad stored) (by rw [isLoad]; exact List.mem_singleton_self operand))
    · exact .inr (.load isLoad stored)
  · have reads : (module.kind value).reads = if (module.kind value).isTypeInst then
        (module.kind value).types else if (module.kind value).isDefinite then (module.kind value).needed
        else (module.kind value).followed := by
      cases isKind : module.kind value with
      | load stored =>
        rcases stored with _ | _ | ⟨first,rest⟩
        · rfl
        · rfl
        · exact absurd ⟨first,rest,isKind⟩ isLoad
      | _ => rfl
    rw [reads] at member
    split_ifs at member with isType isDefinite
    · refine .inl (.part (.instruction isType) ?_)
      revert isType member
      cases module.kind value <;> simp [Kind.isTypeInst,Kind.parts]
    · exact .inl (.operand isDefinite member)
    · exact .inr (follows_of_member straight member)

theorem reads_of_needs (needs : Needs module value operand) (indefinite : ¬ Follows module value operand) :
    operand ∈ (module.kind value).reads ∨ ∃ name definition,module.kind value = .structType name ∧
      (module.definitions name).head? = some definition ∧ operand = definition.value := by
  cases needs with
  | part isType member =>
    left
    cases isType with
    | instruction isType =>
      revert isType member
      cases module.kind value <;> simp [Kind.isTypeInst,Kind.parts,Kind.reads]
    | load isLoad _ =>
      rw [isLoad] at member ⊢
      exact member
  | definition isStruct first => exact .inr ⟨_,_,isStruct,first,rfl⟩
  | operand isDefinite member =>
    left
    revert isDefinite member
    cases module.kind value <;> simp_all [Kind.isDefinite,Kind.reads,Kind.isTypeInst]
  | anew _ _ follows => exact absurd follows indefinite

theorem reads_of_follows (follows : Follows module value operand) :
    operand ∈ (module.kind value).reads ∨ ¬ Definite module value ∧ module.assertion value = some operand := by
  cases follows with
  | operand member _ =>
    left
    revert member
    cases module.kind value with
    | call returnsPointer callee =>
      cases returnsPointer <;> simp [Kind.followed,Kind.reads,Kind.isTypeInst,Kind.needed]
    | _ => simp_all [Kind.followed,Kind.reads,Kind.isTypeInst,Kind.isDefinite]
  | load isLoad _ =>
    left
    rw [isLoad]
    exact List.mem_singleton_self operand
  | asserted indefinite first => exact .inr ⟨indefinite,first⟩

end Finished

/-- The values whose visits are open, and those among them that the query has visited. -/
structure Opened where
  total : Value → Prop
  session : Value → Prop

def Opened.enter (opened : Opened) (value : Value) : Opened :=
  ⟨Below opened.total value,Below opened.session value⟩

structure Grounded (module : Module) (opened : Opened) (entering : Value → Prop) (state : State) : Prop where
  typed : ∀ value,state.valueToType value ≠ none → Finished module opened.total value
  visited : ∀ value ∈ state.visited,Finished module opened.total value ∧
    (Definite module value → state.valueToType value ≠ none) ∨ opened.session value
  edges : ∀ phi,∀ incoming ∈ state.visitedEdges phi,
    Finished module opened.total incoming ∨ entering incoming

structure Explores (module : Module) (opened : Opened) (value : Value) (result : Option Shape)
    (after : State) : Prop where
  finished : Finished module opened.total value ∨ opened.session value
  typed : Definite module value → result ≠ none
  grounded : Grounded module opened opened.session after

structure Completes (module : Module) (opened : Opened) (value : Value) (result : Option Shape)
    (after : State) : Prop where
  finished : Finished module opened.total value
  typed : Definite module value → result ≠ none
  kept : Definite module value → after.valueToType value ≠ none
  grounded : Grounded module (opened.enter value) (opened.enter value).session after

def Founds (module : Module) (recurse : Visitor) : Prop :=
  ∀ value opened state,Straight module value → (∀ other,opened.session other → opened.total other) →
    (∀ other,opened.session other → Relation.TransGen (Walks module) other value) →
    Grounded module opened (Below opened.session value) state →
    Routine.Meets True True (recurse value) state (Explores module opened value)

structure Walking (module : Module) (recurse : Visitor) (opened : Opened) (value : Value) : Prop where
  founds : Founds module recurse
  straight : Straight module value
  total : ∀ other,opened.session other → opened.total other
  ancestors : ∀ other,opened.session other → Relation.TransGen (Walks module) other value

def Known (module : Module) (opened : Opened) (value operand : Value) : Prop :=
  Finished module (Below opened.total value) operand ∨
    Walks module value operand ∧ Below opened.session value operand

section Walks
variable {module : Module} {recurse : Visitor} {opened : Opened} {session entering entering' : Value → Prop}
  {value operand : Value} {state : State} {type : Option Shape}

theorem Grounded.mono {opened' : Opened} (grounded : Grounded module opened entering state)
    (total : ∀ other,opened.total other → opened'.total other)
    (session : ∀ other,opened.session other → opened'.session other)
    (implies : ∀ other,entering other → entering' other) : Grounded module opened' entering' state := by
  refine ⟨fun other typed => (grounded.typed other typed).mono total,fun other member => ?_,
    fun phi incoming member => ?_⟩
  · rcases grounded.visited other member with ⟨finished,kept⟩ | isOpen
    · exact .inl ⟨finished.mono total,kept⟩
    · exact .inr (session other isOpen)
  · rcases grounded.edges phi incoming member with finished | isEntering
    · exact .inl (finished.mono total)
    · exact .inr (implies incoming isEntering)

theorem Grounded.clear (typed : ∀ value,state.valueToType value ≠ none → Finished module opened.total value) :
    Grounded module opened entering state.clear :=
  ⟨typed,fun _ member => absurd member List.not_mem_nil,fun _ _ member => absurd member List.not_mem_nil⟩

theorem Grounded.memoize (grounded : Grounded module opened entering state)
    (finished : Finished module opened.total value) (typed : Definite module value → type ≠ none) :
    Grounded module opened entering (state.memoize value type) := by
  refine ⟨fun other found => ?_,fun other member => ?_,grounded.edges⟩
  · by_cases same : other = value
    · exact same ▸ finished
    · rw [memoize_of_ne state type same] at found
      exact grounded.typed other found
  · refine (grounded.visited other member).imp_left fun ⟨finished,kept⟩ => ⟨finished,fun definite => ?_⟩
    by_cases same : other = value
    · subst same
      rw [memoize_self]
      exact typed definite
    · rw [memoize_of_ne state type same]
      exact kept definite

/-- A value is no longer open. -/
theorem Grounded.settle (grounded : Grounded module ⟨Below opened.total value,session⟩ entering state)
    (finished : Finished module opened.total value) :
    Grounded module ⟨opened.total,session⟩ entering state :=
  ⟨fun other typed => (grounded.typed other typed).close finished,
    fun other member => (grounded.visited other member).imp_left fun ⟨inner,kept⟩ =>
      ⟨inner.close finished,kept⟩,
    fun phi incoming member => (grounded.edges phi incoming member).imp_left (·.close finished)⟩

/-- The visit of a value is over. -/
theorem Grounded.leave (grounded : Grounded module (opened.enter value) (opened.enter value).session state)
    (finished : Finished module opened.total value)
    (kept : Definite module value → state.valueToType value ≠ none) :
    Grounded module opened opened.session state := by
  have settled := grounded.settle finished
  refine ⟨settled.typed,fun other member => ?_,fun phi incoming member => ?_⟩
  · rcases settled.visited other member with inner | isOpen | rfl
    · exact .inl inner
    · exact .inr isOpen
    · exact .inl ⟨finished,kept⟩
  · rcases settled.edges phi incoming member with inner | isOpen | rfl
    · exact .inl inner
    · exact .inr isOpen
    · exact .inl finished

theorem Grounded.enter (grounded : Grounded module opened (Below opened.session value) state)
    (finished : Finished module opened.total value) : Grounded module opened opened.session state := by
  refine ⟨grounded.typed,grounded.visited,fun phi incoming member => ?_⟩
  rcases grounded.edges phi incoming member with inner | isOpen | rfl
  · exact .inl inner
  · exact .inr isOpen
  · exact .inl finished

/-- The edges that lead to values below may be entered. -/
theorem Grounded.weaken {opened' : Opened} (grounded : Grounded module opened' opened'.session state) :
    Grounded module opened' (Below opened'.session operand) state :=
  grounded.mono (fun _ isOpen => isOpen) (fun _ isOpen => isOpen) fun _ => .inl

theorem Walking.below (walking : Walking module recurse opened value) (walks : Walks module value operand)
    (other : Value) (isBelow : Below opened.session value other) :
    Relation.TransGen (Walks module) other operand := by
  rcases isBelow with isOpen | rfl
  · exact (walking.ancestors other isOpen).tail walks
  · exact .single walks

theorem Walking.enter (walking : Walking module recurse opened value) (walks : Walks module value operand) :
    Walking module recurse (opened.enter value) operand :=
  ⟨walking.founds,walking.straight.depends (.single walks.1),
    fun other isBelow => isBelow.imp_left (walking.total other),walking.below walks⟩

/-- An operand that is visited in the same query. -/
theorem Walking.edge (walking : Walking module recurse opened value) (walks : Walks module value operand)
    (grounded : Grounded module (opened.enter value) (Below (opened.enter value).session operand) state) :
    Routine.Meets True True (recurse operand) state fun result after =>
      Known module opened value operand ∧ (Definite module operand → result ≠ none) ∧
        Grounded module (opened.enter value) (opened.enter value).session after := by
  have deeper := walking.enter walks
  apply (walking.founds operand _ state deeper.straight deeper.total deeper.ancestors grounded).mono
  intro result after explores
  exact ⟨explores.finished.imp_right fun isOpen => ⟨walks,isOpen⟩,explores.typed,explores.grounded⟩

theorem Walking.walk (walking : Walking module recurse opened value)
    (member : operand ∈ (module.kind value).reads) (asksNot : (module.kind value).asks = false)
    (grounded : Grounded module (opened.enter value) (opened.enter value).session state) :
    Routine.Meets True True (recurse operand) state fun result after =>
      Known module opened value operand ∧ (Definite module operand → result ≠ none) ∧
        Grounded module (opened.enter value) (opened.enter value).session after :=
  walking.edge ⟨walking.straight.dependsOn member,asksNot⟩ grounded.weaken

/-- An operand that is analysed by a query of its own. -/
theorem Walking.access (walking : Walking module recurse opened value)
    (member : operand ∈ (module.kind value).reads)
    (typed : ∀ other,state.valueToType other ≠ none → Finished module (Below opened.total value) other) :
    Routine.Meets True True (accessType recurse operand) state fun _ after =>
      Finished module (Below opened.total value) operand ∧
        ∀ session entering,Grounded module ⟨Below opened.total value,session⟩ entering after := by
  have step := walking.straight.dependsOn member
  simp only [accessType,analyze,Routine.meets_bind,Routine.meets_update]
  apply (walking.founds operand ⟨Below opened.total value,fun _ => False⟩ state.clear
    (walking.straight.depends (.single step)) (fun _ isOpen => isOpen.elim) (fun _ isOpen => isOpen.elim)
    (.clear typed)).mono
  intro result after explores
  apply Routine.meets_require fun _ => trivial
  intro _ _
  refine ⟨explores.finished.resolve_right id,fun session entering => ?_⟩
  exact explores.grounded.mono (fun _ isOpen => isOpen) (fun _ isOpen => isOpen.elim)
    fun _ isOpen => isOpen.elim

/-- A value whose operands are known. On a cycle where something needs what depends on it, the query does
not come back to an open value. -/
theorem Walking.finish (walking : Walking module recurse opened value)
    (operands : ∀ operand,DependsOn module value operand → Known module opened value operand) :
    Finished module opened.total value := by
  apply finished_of_operands
  · refine ⟨value,fun operand turns => ?_⟩
    rcases operands operand turns.1 with finished | ⟨walks,isBelow⟩
    · exact finished.unturned
    · have loop := walking.below walks operand isBelow
      have cyclic : Cyclic module operand := by
        obtain ⟨first,other,needs,back,home,away⟩ := turns.2.1
        exact ⟨first,other,needs,back,turns.2.2.trans home,away.tail turns.1⟩
      exact absurd loop (walking.straight.loopless operand (.single turns.1) cyclic)
  · intro operand step
    refine (operands operand step).imp_right fun known => ?_
    exact known.2.imp_left (walking.total operand)

theorem Walking.finished (walking : Walking module recurse opened value)
    (reads : ∀ operand ∈ (module.kind value).reads,Known module opened value operand)
    (noStruct : ∀ name,module.kind value ≠ .structType name)
    (transparent : (module.kind value).isOpaque = false) : Finished module opened.total value := by
  apply walking.finish
  intro operand step
  by_cases follows : Follows module value operand
  · rcases reads_of_follows follows with member | ⟨indefinite,first⟩
    · exact reads operand member
    · have isOpaque := walking.straight.asserted value .refl indefinite (by simp [first])
      exact absurd isOpaque (by simp [transparent])
  · rcases reads_of_needs (step.resolve_right follows) follows with member | ⟨name,_,isStruct,_⟩
    · exact reads operand member
    · exact absurd isStruct (noStruct name)

/-- A query does not come back to a definite value. -/
theorem Walking.indefinite (walking : Walking module recurse opened value)
    (isOpen : opened.session value) : ¬ Definite module value := by
  intro definite
  have loop := walking.ancestors value isOpen
  obtain ⟨operand,walks,path⟩ := Relation.TransGen.head'_iff.mp loop
  have back : Depends module operand value := path.lift id fun _ _ walks => walks.1
  have needs := needs_of_definite definite walks.1
  exact walking.straight.loopless value .refl ⟨value,operand,needs,back,.refl,.refl⟩ loop

theorem Walking.memoized {find : Analysis (Option Shape)}
    (walking : Walking module recurse opened value)
    (grounded : Grounded module opened (Below opened.session value) state)
    (finds : Grounded module (opened.enter value) (opened.enter value).session (state.markVisited value) →
      Routine.Meets True True find (state.markVisited value) (Completes module opened value)) :
    Routine.Meets True True (checkMemoized value find) state (Explores module opened value) := by
  apply meets_checkMemoized
  · intro type found
    have finished := grounded.typed value (by simp [found])
    exact ⟨.inl finished,fun _ => by simp,grounded.enter finished⟩
  · intro untyped visited
    rcases grounded.visited value visited with ⟨finished,kept⟩ | isOpen
    · exact ⟨.inl finished,fun definite => absurd untyped (kept definite),grounded.enter finished⟩
    · refine ⟨.inr isOpen,fun definite => absurd definite (walking.indefinite isOpen),?_⟩
      refine ⟨grounded.typed,grounded.visited,fun phi incoming member => ?_⟩
      rcases grounded.edges phi incoming member with inner | isBelow | rfl
      · exact .inl inner
      · exact .inr isBelow
      · exact .inr isOpen
  · intro _ _
    have entered : Grounded module (opened.enter value) (opened.enter value).session state :=
      grounded.mono (fun _ => .inl) (fun _ => .inl) fun _ isBelow => isBelow
    have marked : Grounded module (opened.enter value) (opened.enter value).session
        (state.markVisited value) := by
      refine ⟨entered.typed,fun other member => ?_,entered.edges⟩
      rcases List.mem_cons.mp member with rfl | member
      · exact .inr (.inr rfl)
      · exact entered.visited other member
    apply (finds marked).mono
    exact fun _ _ completes => ⟨.inl completes.finished,completes.typed,
      completes.grounded.leave completes.finished completes.kept⟩

theorem completes_memoize (finished : Finished module opened.total value)
    (typed : Definite module value → type ≠ none)
    (grounded : Grounded module (opened.enter value) (opened.enter value).session state) :
    Routine.Meets True True (memoizeAndReturn value type) state (Completes module opened value) :=
  ⟨finished,typed,fun definite => by rw [memoize_self]; exact typed definite,
    grounded.memoize (finished.mono fun _ => .inl) typed⟩

theorem completes_none (finished : Finished module opened.total value) (indefinite : ¬ Definite module value)
    (grounded : Grounded module (opened.enter value) (opened.enter value).session state) :
    Completes module opened value none state :=
  ⟨finished,fun definite => absurd definite indefinite,fun definite => absurd definite indefinite,grounded⟩

/-- One operand, with a null check. -/
theorem Walking.single (make : Shape → Shape) (walking : Walking module recurse opened value)
    (reads : (module.kind value).reads = [operand]) (asksNot : (module.kind value).asks = false)
    (noStruct : ∀ name,module.kind value ≠ .structType name)
    (transparent : (module.kind value).isOpaque = false)
    (grounded : Grounded module opened (Below opened.session value) state) :
    Routine.Meets True True (checkMemoized value do
      let type ← Routine.require (← recurse operand)
      memoizeAndReturn value (some (make type))) state (Explores module opened value) := by
  apply walking.memoized grounded
  intro marked
  apply (walking.walk (reads ▸ List.mem_cons_self) asksNot marked).bind
  rintro type after ⟨known,_,grounded⟩
  rw [Routine.meets_bind]
  apply Routine.meets_require fun _ => trivial
  intro type _
  apply completes_memoize _ (fun _ => by simp) grounded
  apply walking.finished _ noStruct transparent
  intro other member
  rw [reads] at member
  exact List.mem_singleton.mp member ▸ known

/-- One operand of an accessor. -/
theorem Walking.accessed {element : Analysis Shape} (make : Shape → Shape)
    (walking : Walking module recurse opened value) (reads : (module.kind value).reads = [operand])
    (noStruct : ∀ name,module.kind value ≠ .structType name)
    (transparent : (module.kind value).isOpaque = false)
    (accesses : ∀ state : State,(∀ other,state.valueToType other ≠ none →
        Finished module (Below opened.total value) other) →
      Routine.Meets True True element state fun _ after =>
        Finished module (Below opened.total value) operand ∧
          ∀ session entering,Grounded module ⟨Below opened.total value,session⟩ entering after)
    (grounded : Grounded module opened (Below opened.session value) state) :
    Routine.Meets True True (checkMemoized value do
      let type ← element
      memoizeAndReturn value (some (make type))) state (Explores module opened value) := by
  apply walking.memoized grounded
  intro marked
  apply (accesses _ marked.typed).bind
  rintro type after ⟨finished,grounded⟩
  apply completes_memoize _ (fun _ => by simp) (grounded _ _)
  apply walking.finished _ noStruct transparent
  intro other member
  rw [reads] at member
  exact .inl (List.mem_singleton.mp member ▸ finished)

/-- Operands that are visited one after another. -/
theorem Walking.each {operands : List Value} (walking : Walking module recurse opened value)
    (members : ∀ operand ∈ operands,operand ∈ (module.kind value).reads)
    (asksNot : (module.kind value).asks = false)
    (grounded : Grounded module (opened.enter value) (opened.enter value).session state) :
    Routine.Meets True True (Routine.each recurse operands) state fun _ after =>
      (∀ operand ∈ operands,Known module opened value operand) ∧
        Grounded module (opened.enter value) (opened.enter value).session after := by
  apply Routine.meets_each (fun done _ after => (∀ operand ∈ done,Known module opened value operand) ∧
    Grounded module (opened.enter value) (opened.enter value).session after)
  · exact ⟨fun _ member => absurd member List.not_mem_nil,grounded⟩
  · rintro done _ state operand rest whole ⟨all,grounded⟩
    have member : operand ∈ operands := by simp [← whole]
    apply (walking.walk (members operand member) asksNot grounded).mono
    rintro _ after ⟨known,_,grounded⟩
    refine ⟨fun other member => ?_,grounded⟩
    rcases List.mem_append.mp member with member | member
    · exact all other member
    · exact List.mem_singleton.mp member ▸ known

theorem Walking.returnType {function : Function} (walking : Walking module recurse opened value)
    (members : ∀ operand ∈ function.followed,operand ∈ (module.kind value).reads)
    (asksNot : (module.kind value).asks = false)
    (grounded : Grounded module (opened.enter value) (opened.enter value).session state) :
    Routine.Meets True True (getReturnType recurse function) state fun result after =>
      ((∀ operand ∈ function.followed,Known module opened value operand) ∧
        Grounded module (opened.enter value) (opened.enter value).session after) ∧
          ∀ type types,function.empty = false → function.returnTypes = type :: types →
            Definite module type → result ≠ none := by
  unfold getReturnType
  split
  · rename_i empty
    exact ⟨⟨by simp [Function.followed,empty],grounded⟩,fun _ _ filled => absurd filled (by simp [empty])⟩
  · rename_i filled
    cases isTypes : function.returnTypes with
    | cons type types =>
      have followed : function.followed = [type] := by simp [Function.followed,filled,isTypes]
      rw [followed] at members ⊢
      apply (walking.walk (members type List.mem_cons_self) asksNot grounded).mono
      rintro result after ⟨known,typed,grounded⟩
      refine ⟨⟨fun other member => List.mem_singleton.mp member ▸ known,grounded⟩,?_⟩
      rintro first rest _ isFirst
      obtain ⟨rfl,_⟩ := List.cons.inj isFirst
      exact typed
    | nil =>
      have followed : function.followed = function.returned.reduceOption := by
        simp [Function.followed,filled,isTypes]
      rw [followed] at members ⊢
      apply Routine.Meets.bind
      · apply Routine.meets_each (fun done _ after =>
          (∀ operand ∈ done.reduceOption,Known module opened value operand) ∧
            Grounded module (opened.enter value) (opened.enter value).session after)
        · exact ⟨fun _ member => absurd member List.not_mem_nil,grounded⟩
        · rintro done _ state returned rest whole ⟨all,grounded⟩
          have isReturned : returned ∈ function.returned := by simp [← whole]
          cases returned with
          | none =>
            refine ⟨fun other member => all other ?_,grounded⟩
            simpa [List.reduceOption_append] using member
          | some operand =>
            have member := members operand (List.reduceOption_mem_iff.mpr isReturned)
            apply (walking.walk member asksNot grounded).mono
            rintro _ after ⟨known,_,grounded⟩
            refine ⟨fun other member => ?_,grounded⟩
            rw [List.reduceOption_append] at member
            rcases List.mem_append.mp member with member | member
            · exact all other member
            · obtain rfl := List.mem_singleton.mp member
              exact known
      · rintro types after holds
        exact Routine.meets_require (fun _ => trivial) fun _ _ =>
          ⟨holds,fun _ _ _ isTypes => absurd isTypes (by simp)⟩

theorem Walking.incoming {operands : List Value} (walking : Walking module recurse opened value)
    (members : ∀ operand ∈ operands,operand ∈ (module.kind value).reads)
    (asksNot : (module.kind value).asks = false)
    (grounded : Grounded module (opened.enter value) (opened.enter value).session state) :
    Routine.Meets True True (visitIncoming recurse value operands) state fun _ after =>
      (∀ operand ∈ operands,Known module opened value operand) ∧
        Grounded module (opened.enter value) (opened.enter value).session after := by
  induction operands generalizing state with
  | nil => exact ⟨fun _ member => absurd member List.not_mem_nil,grounded⟩
  | cons operand rest ih =>
    have member := members operand List.mem_cons_self
    have walks : Walks module value operand := ⟨walking.straight.dependsOn member,asksNot⟩
    have rest := fun {state} => @ih state fun other member => members other (List.mem_cons_of_mem operand member)
    rw [visitIncoming,Routine.meets_bind,Routine.meets_read]
    split
    · rename_i visited
      have known : Known module opened value operand :=
        (grounded.edges value operand visited).imp_right fun isBelow => ⟨walks,isBelow⟩
      apply (rest grounded).mono
      rintro _ after ⟨all,grounded⟩
      exact ⟨List.forall_mem_cons.mpr ⟨known,all⟩,grounded⟩
    · rw [Routine.meets_bind,Routine.meets_update,Routine.meets_bind]
      have entered : Grounded module (opened.enter value) (Below (opened.enter value).session operand)
          (state.visitEdge value operand) := by
        refine ⟨grounded.typed,grounded.visited,fun phi incoming member => ?_⟩
        by_cases same : phi = value
        · subst same
          simp only [State.visitEdge,Function.update_self] at member
          rcases List.mem_cons.mp member with rfl | member
          · exact .inr (.inr rfl)
          · exact (grounded.edges phi incoming member).imp_right .inl
        · simp only [State.visitEdge,Function.update_of_ne same] at member
          exact (grounded.edges phi incoming member).imp_right .inl
      apply (walking.edge walks entered).mono
      rintro type after ⟨known,_,grounded⟩
      rw [Routine.meets_bind,Routine.meets_update]
      have kept : Grounded module (opened.enter value) (opened.enter value).session
          (after.insertEdgeType value type) := by
        cases type with
        | none => exact grounded
        | some type => exact ⟨grounded.typed,grounded.visited,grounded.edges⟩
      apply (rest kept).mono
      rintro _ last ⟨all,grounded⟩
      exact ⟨List.forall_mem_cons.mpr ⟨known,all⟩,grounded⟩

/-- Two operands, with null checks. -/
theorem Walking.pair {other : Value} (walking : Walking module recurse opened value)
    (isKind : module.kind value = .assocArrayAlloc operand other)
    (grounded : Grounded module opened (Below opened.session value) state) :
    Routine.Meets True True (visitAssocArrayAllocInst recurse value operand other) state
      (Explores module opened value) := by
  have reads : (module.kind value).reads = [operand,other] := by rw [isKind]; rfl
  have asksNot : (module.kind value).asks = false := by rw [isKind]; rfl
  apply walking.memoized grounded
  intro marked
  apply (walking.walk (reads ▸ List.mem_cons_self) asksNot marked).bind
  rintro key middle ⟨known,_,grounded⟩
  rw [Routine.meets_bind]
  apply Routine.meets_require fun _ => trivial
  intro key _
  apply (walking.walk (reads ▸ List.mem_cons_of_mem _ List.mem_cons_self) asksNot grounded).bind
  rintro element after ⟨known',_,grounded⟩
  rw [Routine.meets_bind]
  apply Routine.meets_require fun _ => trivial
  intro element _
  apply completes_memoize _ (fun _ => by simp) grounded
  apply walking.finished _ (by simp [isKind]) (by rw [isKind]; rfl)
  intro part member
  rw [reads] at member
  rcases List.mem_pair.mp member with rfl | rfl
  · exact known
  · exact known'

theorem Walking.accessPair {other : Value} (walking : Walking module recurse opened value)
    (isKind : module.kind value = .assocArrayType operand other)
    (grounded : Grounded module opened (Below opened.session value) state) :
    Routine.Meets True True (visitAssocArrayTypeInst recurse value operand other) state
      (Explores module opened value) := by
  have reads : (module.kind value).reads = [operand,other] := by rw [isKind]; rfl
  apply walking.memoized grounded
  intro marked
  apply (walking.access (reads ▸ List.mem_cons_self) marked.typed).bind
  rintro key middle ⟨finished,grounded⟩
  have typed := (grounded (fun _ => False) fun _ => False).typed
  apply (walking.access (reads ▸ List.mem_cons_of_mem _ List.mem_cons_self) typed).bind
  rintro element after ⟨finished',grounded⟩
  apply completes_memoize _ (fun _ => by simp) (grounded _ _)
  apply walking.finished _ (by simp [isKind]) (by rw [isKind]; rfl)
  intro part member
  rw [reads] at member
  rcases List.mem_pair.mp member with rfl | rfl
  · exact .inl finished
  · exact .inl finished'

theorem Walking.define (definition : Definition) (walking : Walking module recurse opened definition.value)
    (isDefinition : module.kind definition.value =
      .defineStructType definition.name definition.fieldTypes)
    (grounded : Grounded module opened (Below opened.session definition.value) state) :
    Routine.Meets True True (visitDefineStructTypeInst module recurse definition) state
      (Explores module opened definition.value) := by
  have reads : (module.kind definition.value).reads = definition.fieldTypes := by rw [isDefinition]; rfl
  apply walking.memoized grounded
  intro marked
  apply (walking.each (fun _ member => reads ▸ member) (by rw [isDefinition]; rfl) marked).bind
  rintro types middle ⟨all,grounded⟩
  rw [Routine.meets_bind]
  apply Routine.meets_require fun _ => trivial
  intro name _
  rw [Routine.meets_bind,Routine.meets_update]
  apply completes_memoize _ (fun _ => by simp)
  · unfold State.define
    split
    · exact grounded
    · exact ⟨grounded.typed,grounded.visited,grounded.edges⟩
  · apply walking.finished _ (by simp [isDefinition]) (by rw [isDefinition]; rfl)
    exact fun field member => all field (reads ▸ member)

theorem Walking.structType {name : Value} (walking : Walking module recurse opened value)
    (wellFormed : WellFormed module) (isStruct : module.kind value = .structType name)
    (grounded : Grounded module opened (Below opened.session value) state) :
    Routine.Meets True True (visitStructTypeInst module recurse value name) state
      (Explores module opened value) := by
  have isType : TypeValue module value := .instruction (by rw [isStruct]; rfl)
  apply walking.memoized grounded
  intro marked
  rw [Routine.meets_bind]
  apply Routine.meets_require fun _ => trivial
  intro definition first
  have isDefinition := (mem_definitions wellFormed (List.mem_of_mem_head? first)).1
  have step : DependsOn module value definition.value := .inl (.definition isStruct first)
  have walks : Walks module value definition.value := ⟨step,by rw [isStruct]; rfl⟩
  apply ((walking.enter walks).define definition isDefinition marked.weaken).bind
  intro type after explores
  rw [Routine.meets_bind]
  apply Routine.meets_require fun _ => trivial
  intro type _
  apply completes_memoize _ (fun _ => by simp) explores.grounded
  apply walking.finish
  intro operand step
  have indefinite : ¬ Follows module value operand := by
    intro follows
    rcases reads_of_follows follows with member | ⟨indefinite,_⟩
    · rw [isStruct] at member
      exact absurd member List.not_mem_nil
    · exact absurd (.inl isType) indefinite
  rcases reads_of_needs (step.resolve_right indefinite) indefinite with member | ⟨_,_,isStruct',first',rfl⟩
  · rw [isStruct] at member
    exact absurd member List.not_mem_nil
  · obtain rfl := Kind.structType.inj (isStruct.symm.trans isStruct')
    obtain rfl := Option.some.inj (first.symm.trans first')
    exact explores.finished.imp_right fun isOpen => ⟨walks,isOpen⟩

theorem Walking.getElementType (walking : Walking module recurse opened value)
    (member : operand ∈ (module.kind value).reads)
    (typed : ∀ other,state.valueToType other ≠ none → Finished module (Below opened.total value) other) :
    Routine.Meets True True (getElementType recurse operand) state fun _ after =>
      Finished module (Below opened.total value) operand ∧
        ∀ session entering,Grounded module ⟨Below opened.total value,session⟩ entering after := by
  apply (walking.access member typed).bind
  intro type after found
  rw [Routine.meets_bind,Routine.meets_read]
  exact Routine.meets_require (fun _ => trivial) fun _ _ => found

theorem Walking.getFieldElementType (walking : Walking module recurse opened value)
    (member : operand ∈ (module.kind value).reads) (fieldIndex : Nat)
    (typed : ∀ other,state.valueToType other ≠ none → Finished module (Below opened.total value) other) :
    Routine.Meets True True (getFieldElementType recurse operand fieldIndex) state fun _ after =>
      Finished module (Below opened.total value) operand ∧
        ∀ session entering,Grounded module ⟨Below opened.total value,session⟩ entering after := by
  apply (walking.access member typed).bind
  intro type after found
  cases type with
  | struct name =>
    dsimp only
    split
    · rw [Routine.meets_bind,Routine.meets_read]
      exact Routine.meets_require (fun _ => trivial) fun _ _ => found
    · trivial
  | _ => trivial

theorem Walking.call {returnsPointer : Bool} {callee : Function}
    (walking : Walking module recurse opened value) (wellFormed : WellFormed module)
    (isCall : module.kind value = .call returnsPointer callee)
    (grounded : Grounded module opened (Below opened.session value) state) :
    Routine.Meets True True (visitLLVMCallInst recurse value returnsPointer callee) state
      (Explores module opened value) := by
  have noStruct : ∀ name,module.kind value ≠ .structType name := by simp [isCall]
  have transparent : (module.kind value).isOpaque = false := by rw [isCall]; rfl
  apply walking.memoized grounded
  intro marked
  cases returnsPointer with
  | false =>
    have indefinite := indefinite_of_kind isCall rfl rfl (by simp)
    refine completes_none (walking.finished (fun operand member => ?_) noStruct transparent) indefinite
      marked
    rw [isCall] at member
    exact absurd member List.not_mem_nil
  | true =>
    have reads : (module.kind value).reads = callee.followed := by
      rw [isCall]
      simp [Kind.reads,Kind.isTypeInst,Kind.needed,Kind.followed]
    rw [if_pos rfl]
    apply (walking.returnType (fun _ member => reads ▸ member) (by rw [isCall]; rfl) marked).bind
    rintro type after ⟨⟨all,grounded⟩,typed⟩
    refine completes_memoize (walking.finished (fun operand member => ?_) noStruct transparent) ?_ grounded
    · exact all operand (reads ▸ member)
    · intro definite
      have declared : (module.kind value).isDefinite := by
        refine definite.resolve_left (not_typeValue (by rw [isCall]; rfl) (by simp [isCall]))
      rw [isCall] at declared
      cases isTypes : callee.returnTypes with
      | nil => exact absurd declared (by simp [Kind.isDefinite,isTypes])
      | cons type types =>
        apply typed type types (by simpa [Kind.isDefinite,isTypes] using declared) isTypes
        exact .inl (wellFormed.types value type (by simp [isCall,Kind.types,Kind.returnTypes,isTypes]))

theorem Walking.indirectCall {returnsPointer : Bool} {candidates : List Function}
    (walking : Walking module recurse opened value)
    (isCall : module.kind value = .indirectCall returnsPointer candidates)
    (grounded : Grounded module opened (Below opened.session value) state) :
    Routine.Meets True True (visitIndirectCallInst recurse value returnsPointer candidates) state
      (Explores module opened value) := by
  have noStruct : ∀ name,module.kind value ≠ .structType name := by simp [isCall]
  have transparent : (module.kind value).isOpaque = false := by rw [isCall]; rfl
  have indefinite := indefinite_of_kind isCall rfl rfl (by simp)
  apply walking.memoized grounded
  intro marked
  cases returnsPointer with
  | false =>
    refine completes_none (walking.finished (fun operand member => ?_) noStruct transparent) indefinite
      marked
    rw [isCall] at member
    exact absurd member List.not_mem_nil
  | true =>
    have reads : (module.kind value).reads = candidates.flatMap Function.followed := by
      rw [isCall]
      rfl
    rw [if_pos rfl]
    apply Routine.Meets.bind
    · apply Routine.meets_each (fun done _ after =>
        (∀ operand ∈ done.flatMap Function.followed,Known module opened value operand) ∧
          Grounded module (opened.enter value) (opened.enter value).session after)
      · exact ⟨fun _ member => absurd member List.not_mem_nil,marked⟩
      · rintro done _ state function rest whole ⟨all,grounded⟩
        have members : ∀ operand ∈ function.followed,operand ∈ (module.kind value).reads :=
          fun operand member =>
            reads ▸ List.mem_flatMap.mpr ⟨function,whole ▸ List.mem_append_right _ List.mem_cons_self,member⟩
        apply (walking.returnType members (by rw [isCall]; rfl) grounded).mono
        rintro _ after ⟨⟨all',grounded⟩,_⟩
        refine ⟨fun operand member => ?_,grounded⟩
        rw [List.flatMap_append] at member
        rcases List.mem_append.mp member with member | member
        · exact all operand member
        · exact all' operand (by simpa using member)
    · rintro types after ⟨all,grounded⟩
      rw [Routine.meets_bind]
      apply Routine.meets_require fun _ => trivial
      intro _ _
      apply completes_memoize _ (fun definite => absurd definite indefinite) grounded
      exact walking.finished (fun operand member => all operand (reads ▸ member)) noStruct transparent

theorem Walking.load {stored : Option (List Value)} (walking : Walking module recurse opened value)
    (isLoad : module.kind value = .load stored)
    (grounded : Grounded module opened (Below opened.session value) state) :
    Routine.Meets True True (visitLoadInst recurse value stored) state (Explores module opened value) := by
  have noStruct : ∀ name,module.kind value ≠ .structType name := by simp [isLoad]
  have transparent : (module.kind value).isOpaque = false := by rw [isLoad]; rfl
  apply walking.memoized grounded
  intro marked
  have absent : (∀ first rest,stored ≠ some (first :: rest)) →
      Completes module opened value none (state.markVisited value) := by
    intro unstored
    have reads : (module.kind value).reads = [] := by
      rw [isLoad]
      rcases stored with _ | _ | ⟨first,rest⟩
      · rfl
      · rfl
      · exact absurd rfl (unstored first rest)
    have indefinite : ¬ Definite module value := by
      rintro (isType | definite)
      · cases isType with
        | instruction isType => exact absurd isType (by simp [isLoad,Kind.isTypeInst])
        | load isLoad' _ => exact unstored _ _ (Kind.load.inj (isLoad.symm.trans isLoad'))
      · exact absurd definite (by simp [isLoad,Kind.isDefinite])
    refine completes_none (walking.finished (fun operand member => ?_) noStruct transparent) indefinite
      marked
    rw [reads] at member
    exact absurd member List.not_mem_nil
  rcases stored with _ | _ | ⟨first,rest⟩
  · exact absent (by simp)
  · exact absent (by simp)
  · apply (walking.walk (by rw [isLoad]; exact List.mem_cons_self) (by rw [isLoad]; rfl) marked).bind
    rintro type after ⟨known,_,grounded⟩
    rw [Routine.meets_bind]
    apply Routine.meets_require fun _ => trivial
    intro type _
    apply completes_memoize _ (fun _ => by simp) grounded
    refine walking.finished (fun operand member => ?_) noStruct transparent
    rw [isLoad] at member
    exact List.mem_singleton.mp member ▸ known

theorem Walking.phi {incoming : List Value} (walking : Walking module recurse opened value)
    (isPhi : module.kind value = .phi incoming)
    (grounded : Grounded module opened (Below opened.session value) state) :
    Routine.Meets True True (visitPHINode recurse value incoming) state (Explores module opened value) := by
  have reads : (module.kind value).reads = incoming := by rw [isPhi]; rfl
  have indefinite := indefinite_of_kind isPhi rfl rfl (by simp)
  apply walking.memoized grounded
  intro marked
  apply (walking.incoming (fun _ member => reads ▸ member) (by rw [isPhi]; rfl) marked).bind
  rintro _ after ⟨all,grounded⟩
  have finished := walking.finished (fun operand member => all operand (reads ▸ member)) (by simp [isPhi])
    (by rw [isPhi]; rfl)
  rw [Routine.meets_bind,Routine.meets_read]
  split
  · exact completes_memoize finished (fun _ => by simp) grounded
  · exact completes_none finished indefinite grounded

theorem Walking.visit (walking : Walking module recurse opened value) (wellFormed : WellFormed module)
    (transparent : (module.kind value).isOpaque = false)
    (grounded : Grounded module opened (Below opened.session value) state) :
    Routine.Meets True True (visit module recurse value) state (Explores module opened value) := by
  have leaf : (module.kind value).reads = [] → (∀ name,module.kind value ≠ .structType name) →
      Finished module opened.total value := by
    intro reads noStruct
    refine walking.finished (fun operand member => ?_) noStruct transparent
    rw [reads] at member
    exact absurd member List.not_mem_nil
  have found : ∀ type,(module.kind value).reads = [] → (∀ name,module.kind value ≠ .structType name) →
      Explores module opened value (some type) state := fun type reads noStruct =>
    ⟨.inl (leaf reads noStruct),fun _ => by simp,grounded.enter (leaf reads noStruct)⟩
  have absent : (module.kind value).reads = [] → (∀ name,module.kind value ≠ .structType name) →
      ¬ Definite module value → Explores module opened value none state := fun reads noStruct indefinite =>
    ⟨.inl (leaf reads noStruct),fun definite => absurd definite indefinite,
      grounded.enter (leaf reads noStruct)⟩
  unfold TypeAnalysis.visit
  cases isKind : module.kind value with
  | integerType _ | floatType | doubleType | pointerType =>
    exact found _ (by rw [isKind]; rfl) (by simp [isKind])
  | referenceType type =>
    apply (walking.access (by rw [isKind]; exact List.mem_cons_self)
      fun other typed => (grounded.typed other typed).mono fun _ => .inl).bind
    rintro referenced after ⟨part,grounded⟩
    have finished : Finished module opened.total value := by
      refine walking.finished (fun operand member => .inl ?_) (by simp [isKind]) transparent
      rw [isKind] at member
      exact List.mem_singleton.mp member ▸ part
    exact ⟨.inl finished,fun _ => by simp,(grounded _ _).settle finished⟩
  | defineStructType name fieldTypes => exact walking.define ⟨value,name,fieldTypes⟩ isKind grounded
  | structType name => exact walking.structType wellFormed isKind grounded
  | staticTensorType type lengths =>
    exact walking.accessed (.staticTensor · lengths) (by rw [isKind]; rfl) (by simp [isKind]) transparent
      (fun _ typed => walking.access (by rw [isKind]; exact List.mem_cons_self) typed) grounded
  | tensorType type number =>
    exact walking.accessed (.tensor · number) (by rw [isKind]; rfl) (by simp [isKind]) transparent
      (fun _ typed => walking.access (by rw [isKind]; exact List.mem_cons_self) typed) grounded
  | sequenceType type =>
    exact walking.accessed .sequence (by rw [isKind]; rfl) (by simp [isKind]) transparent
      (fun _ typed => walking.access (by rw [isKind]; exact List.mem_cons_self) typed) grounded
  | assocArrayType keyType valueType => exact walking.accessPair isKind grounded
  | structAlloc type | assertStructType type _ | assertCollectionType type _ | returnType type =>
    exact walking.single id (by rw [isKind]; rfl) (by rw [isKind]; rfl) (by simp [isKind]) transparent grounded
  | tensorAlloc type number =>
    exact walking.single (.tensor · number) (by rw [isKind]; rfl) (by rw [isKind]; rfl) (by simp [isKind])
      transparent grounded
  | sequenceAlloc type =>
    exact walking.single .sequence (by rw [isKind]; rfl) (by rw [isKind]; rfl) (by simp [isKind])
      transparent grounded
  | assocArrayAlloc keyType valueType => exact walking.pair isKind grounded
  | read object =>
    exact walking.accessed unwrap (by rw [isKind]; rfl) (by simp [isKind]) transparent
      (fun _ typed => walking.getElementType (by rw [isKind]; exact List.mem_cons_self) typed) grounded
  | structRead object fieldIndex =>
    exact walking.accessed unwrap (by rw [isKind]; rfl) (by simp [isKind]) transparent
      (fun _ typed => walking.getFieldElementType (by rw [isKind]; exact List.mem_cons_self) fieldIndex typed)
      grounded
  | get object =>
    exact walking.accessed id (by rw [isKind]; rfl) (by simp [isKind]) transparent
      (fun _ typed => walking.getElementType (by rw [isKind]; exact List.mem_cons_self) typed) grounded
  | structGet object fieldIndex =>
    exact walking.accessed id (by rw [isKind]; rfl) (by simp [isKind]) transparent
      (fun _ typed => walking.getFieldElementType (by rw [isKind]; exact List.mem_cons_self) fieldIndex typed)
      grounded
  | forward operation collection =>
    have indefinite := indefinite_of_kind isKind rfl rfl (by simp)
    apply walking.memoized grounded
    intro marked
    apply (walking.walk (by rw [isKind]; exact List.mem_cons_self) (by rw [isKind]; rfl) marked).bind
    rintro type after ⟨known,_,grounded⟩
    apply completes_memoize _ (fun definite => absurd definite indefinite) grounded
    refine walking.finished (fun operand member => ?_) (by simp [isKind]) transparent
    rw [isKind] at member
    exact List.mem_singleton.mp member ▸ known
  | swap _ _ | mutSeqSwap _ _ =>
    have swapless := walking.straight.swapless value .refl
    exact absurd swapless (by simp [isKind,Kind.isSwap])
  | assocKeys collection =>
    have indefinite := indefinite_of_kind isKind rfl rfl (by simp)
    apply walking.memoized grounded
    intro marked
    apply (walking.walk (by rw [isKind]; exact List.mem_cons_self) (by rw [isKind]; rfl) marked).bind
    rintro type after ⟨known,_,grounded⟩
    rw [Routine.meets_bind]
    apply Routine.meets_require fun _ => trivial
    intro keys _
    apply completes_memoize _ (fun definite => absurd definite indefinite) grounded
    refine walking.finished (fun operand member => ?_) (by simp [isKind]) transparent
    rw [isKind] at member
    exact List.mem_singleton.mp member ▸ known
  | call returnsPointer callee => exact walking.call wellFormed isKind grounded
  | indirectCall returnsPointer candidates => exact walking.indirectCall isKind grounded
  | load stored => exact walking.load isKind grounded
  | phi incoming => exact walking.phi isKind grounded
  | globalString _ | getElementPtr _ | constantGetElementPtr _ | constantNull =>
    exact absent (by rw [isKind]; rfl) (by simp [isKind]) (indefinite_of_kind isKind rfl rfl (by simp))
  | argument | other => exact absurd transparent (by simp [isKind,Kind.isOpaque])

/-- A value that only its first assertion can give a type. -/
theorem Walking.asserted {users : List Value} (walking : Walking module recurse opened value)
    (isOpaque : (module.kind value).isOpaque)
    (first : users.find? (fun user => (module.kind user).assertedType.isSome) = module.assertion value)
    (grounded : Grounded module opened (Below opened.session value) state) :
    Routine.Meets True True (findAsserted module recurse value users) state
      (Explores module opened value) := by
  have plain : (module.kind value).reads = [] ∧ (∀ name,module.kind value ≠ .structType name) ∧
      ¬ Definite module value ∧ (module.kind value).asks = false := by
    cases isKind : module.kind value with
    | argument | other => exact ⟨rfl,by simp,indefinite_of_kind isKind rfl rfl (by simp),rfl⟩
    | _ =>
      rw [isKind] at isOpaque
      exact absurd isOpaque (by simp [Kind.isOpaque])
  obtain ⟨reads,noStruct,indefinite,asksNot⟩ := plain
  have finished : (∀ user,module.assertion value = some user → Known module opened value user) →
      Finished module opened.total value := by
    intro users
    apply walking.finish
    intro operand step
    by_cases follows : Follows module value operand
    · rcases reads_of_follows follows with member | ⟨_,first⟩
      · rw [reads] at member
        exact absurd member List.not_mem_nil
      · exact users operand first
    · rcases reads_of_needs (step.resolve_right follows) follows with member | ⟨name,_,isStruct,_⟩
      · rw [reads] at member
        exact absurd member List.not_mem_nil
      · exact absurd isStruct (noStruct name)
  induction users with
  | nil =>
    have finished := finished fun user isFirst => absurd (first.trans isFirst) (by simp)
    exact ⟨.inl finished,fun definite => absurd definite indefinite,grounded.enter finished⟩
  | cons user users ih =>
    unfold findAsserted
    split
    · rename_i unasserted
      exact ih (by rw [← first,List.find?_cons,unasserted]; rfl)
    · rename_i type asserts
      have isFirst : module.assertion value = some user := by rw [← first]; simp [asserts]
      have walks : Walks module value user := ⟨.inr (.asserted indefinite isFirst),asksNot⟩
      have assertion : (module.kind user).reads = [type] ∧ (module.kind user).asks = false ∧
          (∀ name,module.kind user ≠ .structType name) ∧ (module.kind user).isOpaque = false ∧
            (module.kind user).isDefinite := by
        cases isKind : module.kind user with
        | assertStructType _ _ | assertCollectionType _ _ =>
          rw [isKind] at asserts
          obtain rfl := Option.some.inj asserts
          exact ⟨rfl,rfl,by simp,rfl,rfl⟩
        | _ =>
          rw [isKind] at asserts
          exact absurd asserts (by simp [Kind.assertedType])
      obtain ⟨reads,asksNot,noStruct,transparent,definite⟩ := assertion
      have entered : Grounded module (opened.enter value) (opened.enter value).session state :=
        grounded.mono (fun _ => .inl) (fun _ => .inl) fun _ isBelow => isBelow
      apply ((walking.enter walks).single id reads asksNot noStruct transparent entered.weaken).bind
      rintro (_ | asserted) after explores
      · exact absurd rfl (explores.typed (.inr definite))
      · have finished := finished fun other isOther => by
          rw [isFirst] at isOther
          obtain rfl := Option.some.inj isOther
          exact explores.finished.imp_right fun isOpen => ⟨walks,isOpen⟩
        apply (completes_memoize finished (fun _ => by simp) explores.grounded).mono
        exact fun _ _ completes => ⟨.inl completes.finished,completes.typed,
          completes.grounded.leave completes.finished completes.kept⟩

theorem findAsserted_none {users : List Value} {post : Option Shape → State → Prop}
    (unasserted : users.find? (fun user => (module.kind user).assertedType.isSome) = none)
    (holds : post none state) :
    Routine.Meets True True (findAsserted module recurse value users) state post := by
  induction users with
  | nil => exact holds
  | cons user users ih =>
    unfold findAsserted
    cases asserts : (module.kind user).assertedType with
    | none => exact ih (by simpa [asserts] using unasserted)
    | some type => exact absurd unasserted (by simp [asserts])

theorem Walking.resolve (walking : Walking module recurse opened value) (wellFormed : WellFormed module)
    (grounded : Grounded module opened (Below opened.session value) state) :
    Routine.Meets True True (resolve module recurse value) state (Explores module opened value) := by
  cases isOpaque : (module.kind value).isOpaque with
  | false =>
    apply (walking.visit wellFormed isOpaque grounded).bind
    rintro (_ | type) after explores
    · have indefinite : ¬ Definite module value := fun definite => explores.typed definite rfl
      have unasserted : module.assertion value = none := by
        by_contra asserted
        have isOpaque' := walking.straight.asserted value .refl indefinite asserted
        exact absurd isOpaque' (by simp [isOpaque])
      dsimp only
      split
      · exact explores
      · exact findAsserted_none unasserted explores
    · exact explores
  | true =>
    unfold TypeAnalysis.resolve TypeAnalysis.visit
    cases isKind : module.kind value with
    | argument | other => exact walking.asserted isOpaque rfl grounded
    | _ =>
      rw [isKind] at isOpaque
      exact absurd isOpaque (by simp [Kind.isOpaque])

end Walks

theorem founds_getTypeHelper {module : Module} (wellFormed : WellFormed module) (fuel : Nat) :
    Founds module (getTypeHelper module fuel) := by
  induction fuel with
  | zero => exact fun _ _ _ _ _ _ _ => trivial
  | succ fuel ih =>
    intro value opened state straight total ancestors grounded
    exact Walking.resolve ⟨ih,straight,total,ancestors⟩ wellFormed grounded

/-- Queries that return have gone through all that they get to. -/
theorem queries_finished {module : Module} (wellFormed : WellFormed module) {queries : List Value}
    (straight : ∀ query ∈ queries,Straight module query) (fuel : Nat) :
    Routine.Meets True True (Routine.each (getType module fuel) queries) .initial fun _ _ =>
      ∀ query ∈ queries,Finished module (fun _ => False) query := by
  apply (Routine.meets_each (fun done _ after =>
    (∀ query ∈ done,Finished module (fun _ => False) query) ∧
      ∀ value,after.valueToType value ≠ none → Finished module (fun _ => False) value) _ _).mono
  · exact fun _ _ both => both.1
  · exact ⟨fun _ member => absurd member List.not_mem_nil,fun _ typed => absurd rfl typed⟩
  · rintro done _ state query rest whole ⟨finished,typed⟩
    have member : query ∈ queries := by simp [← whole]
    rw [getType,analyze,Routine.meets_bind,Routine.meets_update]
    apply (founds_getTypeHelper wellFormed fuel query ⟨fun _ => False,fun _ => False⟩ state.clear
      (straight query member) (fun _ isOpen => isOpen) (fun _ isOpen => isOpen.elim) (.clear typed)).mono
    intro _ after explores
    refine ⟨fun other member => ?_,explores.grounded.typed⟩
    rcases List.mem_append.mp member with member | member
    · exact finished other member
    · exact List.mem_singleton.mp member ▸ explores.finished.resolve_right id

end Memoir.TypeAnalysis
