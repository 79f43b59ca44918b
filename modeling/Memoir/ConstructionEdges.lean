import Memoir.ConstructionRuns

/-! The value machine follows the in-place machine along the edges of the graph. -/
namespace Memoir

theorem lookup_map_value {α β γ : Type} [BEq α] [LawfulBEq α] (g : α → β → γ) (entries : List (α × β))
    (key : α) : (entries.map fun entry => (entry.1,g entry.1 entry.2)).lookup key =
      (entries.lookup key).map (g key) := by
  induction entries with
  | nil => rfl
  | cons entry rest ih =>
    obtain ⟨first,value⟩ := entry
    simp only [List.map_cons,List.lookup_cons]
    by_cases same : key = first
    · subst same
      simp
    · simp [beq_eq_false_iff_ne.mpr same,ih]

theorem lookup_map_key {α β γ : Type} [BEq β] [LawfulBEq β] {f : α → β} (injective : Function.Injective f)
    (g : α → γ) {xs : List α} {x : α} (member : x ∈ xs) :
    (xs.map fun x => (f x,g x)).lookup (f x) = some (g x) := by
  induction xs with
  | nil => exact absurd member List.not_mem_nil
  | cons y rest ih =>
    simp only [List.map_cons,List.lookup_cons]
    by_cases same : x = y
    · subst same
      simp
    · have apart : (f x == f y) = false := beq_eq_false_iff_ne.mpr fun this => same (injective this)
      simp only [apart]
      exact ih ((List.mem_cons.mp member).resolve_left same)

section
variable {ρ μ : Type} {function : Function} {s t : Nat} {state : State ρ μ}

def incomingValues (phis : List (Name × Phi)) (s : Nat) (env : Env ρ) :
    Option (List (Name × Option (RtValue ρ))) :=
  phis.mapM fun (n,phi) => do return (n,evaluate env (← phi.incoming.lookup s))

theorem incomingValues_lookup {env : Env ρ} {phis : List (Name × Phi)}
    {values : List (Name × Option (RtValue ρ))} (found : incomingValues phis s env = some values)
    (n : Name) : values.lookup n =
      (phis.lookup n).bind fun phi => (phi.incoming.lookup s).map (evaluate env) := by
  induction phis generalizing values with
  | nil =>
    obtain rfl := Option.some.inj found
    rfl
  | cons entry rest ih =>
    obtain ⟨m,phi⟩ := entry
    simp only [incomingValues,List.mapM_cons,Option.pure_def,Option.bind_eq_bind,
      Option.bind_eq_some_iff,Option.some.injEq] at found
    obtain ⟨_,⟨element,is,rfl⟩,others,rest',rfl⟩ := found
    have tail := ih rest'
    by_cases same : n = m
    · subst same
      simp [is]
    · simp only [List.lookup_cons,beq_eq_false_iff_ne.mpr same,tail]

theorem incomingValues_some {env : Env ρ} {phis : List (Name × Phi)}
    (each : ∀ entry ∈ phis, (entry.2.incoming.lookup s).isSome = true) :
    ∃ values, incomingValues phis s env = some values := by
  induction phis with
  | nil => exact ⟨[],rfl⟩
  | cons entry rest ih =>
    obtain ⟨element,is⟩ := Option.isSome_iff_exists.mp (each entry List.mem_cons_self)
    obtain ⟨values,rest'⟩ := ih fun entry member => each entry (List.mem_cons_of_mem _ member)
    refine ⟨(entry.1,evaluate env element) :: values,?_⟩
    unfold incomingValues at rest' ⊢
    rw [List.mapM_cons,rest']
    simp [is]

def entered (state : State ρ μ) (values : List (Name × Option (RtValue ρ))) : State ρ μ :=
  {state with
    env := fun n => (values.lookup n).getD (state.env n)
    defined := fun n => (values.lookup n).getD (state.defined n)}

theorem enter_some {config : Config ρ μ} (ran : enter function s t state = some config) :
    ∃ block values, function.blocks[t]? = some block ∧
      incomingValues block.phis s state.env = some values ∧
        config = ⟨t,block.body,entered state values⟩ := by
  simp only [enter,Option.pure_def,Option.bind_eq_bind,Option.bind_eq_some_iff,
    Option.some.injEq] at ran
  obtain ⟨block,found,values,taken,rfl⟩ := ran
  exact ⟨block,values,found,taken,rfl⟩

theorem enter_eq {block : BasicBlock} {values : List (Name × Option (RtValue ρ))}
    (found : function.blocks[t]? = some block)
    (taken : incomingValues block.phis s state.env = some values) :
    enter function s t state = some ⟨t,block.body,entered state values⟩ := by
  unfold incomingValues at taken
  simp only [enter,found,Option.bind_eq_bind,Option.bind_some,Option.pure_def] at taken ⊢
  rw [taken]
  rfl

end

namespace Construction
open Dominance
open InPlace (Seen Current)

theorem collections_lookup {phi : Phi} (all : ∀ entry ∈ phi.incoming, entry.2.collection?.isSome = true)
    (s : Nat) : (Phi.collections phi).lookup s = (phi.incoming.lookup s).bind Element.collection? := by
  unfold Phi.collections
  generalize phi.incoming = edges at all ⊢
  induction edges with
  | nil => rfl
  | cons edge edges ih =>
    obtain ⟨source,element⟩ := edge
    obtain ⟨value,is⟩ := Option.isSome_iff_exists.mp (all _ List.mem_cons_self)
    have tail := ih fun entry member => all entry (List.mem_cons_of_mem _ member)
    simp only [List.filterMap_cons,is,Option.map_some,List.lookup_cons]
    by_cases same : s = source
    · subst same
      simpa using is.symm
    · simp [beq_eq_false_iff_ne.mpr same,tail]

section
variable {program : Program} {tree : Tree program.function} {inserted : List (Name × List Nat)}
  {s t : Nat} {block : BasicBlock}

theorem renamedIncoming_lookup (reached : s ∈ tree.preorder) (entries : List (Nat × Value)) :
    (renamedIncoming program.function tree inserted entries).lookup s = (entries.lookup s).map
      (rename (nearest program.function tree inserted (endPoint program.function s))) := by
  have shape : renamedIncoming program.function tree inserted entries = entries.map fun entry =>
      (entry.1,if entry.1 ∈ tree.preorder then
        rename (nearest program.function tree inserted (endPoint program.function entry.1)) entry.2
      else entry.2) := by
    refine List.map_congr_left fun entry _ => ?_
    split <;> rfl
  rw [shape,lookup_map_value fun source value => if source ∈ tree.preorder then
    rename (nearest program.function tree inserted (endPoint program.function source)) value else value]
  simp [reached]

theorem constructedBlock_phis_eq (b : Nat) (block : BasicBlock) :
    (constructedBlock program.function tree inserted b block).phis =
      block.phis.map (fun entry =>
        (entry.1,constructedPhi program.function tree inserted entry.1 entry.2)) ++
      (insertedAt inserted b).map fun named => (.insertedPhi b named,
        ⟨(renamedIncoming program.function tree inserted
          (initialIncoming program.function (.insertedPhi b named))).map
            fun entry => (entry.1,.collection entry.2)⟩) := by
  unfold constructedBlock
  dsimp only
  split <;> rfl

theorem lookup_names {phis : List (Name × Phi)} {n : Name} (absent : n ∉ phis.map Prod.fst) :
    phis.lookup n = none := by
  refine List.lookup_eq_none_iff.mpr fun entry member => ?_
  simp only [bne_iff_ne,ne_eq]
  rintro rfl
  exact absent (List.mem_map_of_mem member)

theorem constructed_lookup (n : Name) :
    (constructedBlock program.function tree inserted t block).phis.lookup n =
      ((block.phis.lookup n).map (constructedPhi program.function tree inserted n)).or
        (((insertedAt inserted t).map fun named => (Name.insertedPhi t named,
          (⟨(renamedIncoming program.function tree inserted
            (initialIncoming program.function (.insertedPhi t named))).map
              fun entry => (entry.1,.collection entry.2)⟩ : Phi))).lookup n) := by
  rw [constructedBlock_phis_eq,List.lookup_append,lookup_map_value]

/-- Every PHI node of the new function has a value for the edge. -/
theorem constructed_incoming_some (edge : t ∈ program.function.successors s)
    (found : program.function.blocks[t]? = some block) {n : Name} {phi : Phi}
    (member : (n,phi) ∈ (constructedBlock program.function tree inserted t block).phis) :
    (phi.incoming.lookup s).isSome = true := by
  have source : s ∈ program.function.predecessors t := mem_predecessors.mpr edge
  have present : s ∈ phi.incoming.map Prod.fst := by
    rcases constructed_phi found member with ⟨isPhi,incoming⟩ | ⟨_,inPhis⟩
    · have keys : phi.incoming.map Prod.fst =
          (initialIncoming program.function n).map Prod.fst := by
        rw [incoming,renamedIncoming,List.map_map,List.map_map]
        refine List.map_congr_left fun entry _ => ?_
        simp only [Function.comp_apply]
        split <;> rfl
      rw [keys]
      exact (initialIncoming_edges isPhi).mem_iff.mpr source
    · exact (program.incoming t block found n phi inPhis).mem_iff.mpr source
  by_contra none
  obtain ⟨entry,inIncoming,rfl⟩ := List.mem_map.mp present
  rw [Bool.not_eq_true,Option.isSome_eq_false_iff,Option.isNone_iff_eq_none] at none
  exact absurd (List.lookup_eq_none_iff.mp none entry inIncoming) (by simp)

variable {token : Stamp → Nat} {state : InPlace.Store} {values : Pure.Store}
  (renamable : Renamable program tree) (placed : Placed program inserted)
  (closed : Closed tree inserted) {source : BasicBlock}
  (reachable : program.function.graph.Reachable s)
  (found : program.function.blocks[s]? = some source)
  (edge : t ∈ program.function.successors s)
  (found' : program.function.blocks[t]? = some block)
  (named : Named program tree inserted token s source.body.length state values)

omit edge found' in
include renamable placed closed reachable found named in
/-- The end of a block names the versions of the variables that are used after it. -/
theorem Named.outgoing {x : Name} (live : Live program.function x s source.body.length)
    (ready : Ready program tree x (endPoint program.function s)) :
    values.env (nearest program.function tree inserted (endPoint program.function s) x) =
      (state.env x).map (RtValue.map token) := by
  have same : endPoint program.function s = .before s source.body.length := by
    simp [endPoint,found]
  rw [same] at ready ⊢
  exact named.versions x ready.1 live _ (nearest_of_ready placed (renamable.walkable placed closed)
    reachable found (Nat.le_refl _) ready)

include renamable placed closed reachable found edge found' named

/-- A PHI node of the program takes the same value from the edge on both machines. -/
theorem Named.taken {j : Nat} {n : Name} {phi : Phi} (at_ : block.phis[j]? = some (n,phi))
    {element : Element} (is : phi.incoming.lookup s = some element) :
    ∃ element', (constructedPhi program.function tree inserted n phi).incoming.lookup s =
        some element' ∧
      evaluate values.env element' = (evaluate state.env element).map (RtValue.map token) := by
  have inBlocks := List.mem_of_getElem? found'
  have inPhis := List.mem_of_getElem? at_
  have incoming := mem_of_lookup is
  have types := program.phi_types block inBlocks n phi inPhis
  unfold constructedPhi
  split_ifs with isCollection
  · rw [isCollection] at types
    obtain ⟨value,isValue⟩ := Option.isSome_iff_exists.mp (types _ incoming)
    obtain rfl : element = .collection value := by
      cases element with
      | scalar s => exact absurd isValue (by simp [Element.collection?])
      | collection v => exact congrArg _ (Option.some.inj isValue)
    have reached := (tree.preorder_reachable s).mpr reachable
    refine ⟨.collection (rename (nearest program.function tree inserted
      (endPoint program.function s)) value),?_,?_⟩
    · rw [lookup_map_value fun _ value => Element.collection value,renamedIncoming_lookup reached,
        collections_lookup types,is]
      rfl
    · cases value with
      | constant k => rfl
      | null => rfl
      | name x =>
        have isPhi : n ∈ collectionPhis program.function inserted t :=
          mem_collectionPhis.mpr (.inl ⟨block,j,phi,found',at_,program.phi_at found' at_,isCollection⟩)
        have ready : Ready program tree x (endPoint program.function s) := by
          refine ready_incoming placed isPhi edge reachable ?_
          rw [program.phi_at found' at_,initialIncoming_phi found' (program.phi_at found' at_ ▸ at_)]
          exact mem_collections.mpr incoming
        exact named.outgoing renamable placed closed reachable found
          (.incoming found edge found' inPhis incoming) ready
  · refine ⟨element,is,?_⟩
    rw [eq_false_of_ne_true isCollection] at types
    cases element with
    | collection v => exact absurd (types _ incoming) (by simp [Element.collection?])
    | scalar scalar =>
      cases scalar with
      | constant w => rfl
      | name m =>
        refine named.scalar_operand ?_ ((program.scalars block inBlocks).2.2.2 n phi inPhis s m incoming)
        exact (program.ssa.defined block inBlocks).2.2 n phi inPhis _ incoming m rfl

omit renamable placed closed named found found' in
theorem inserted_taken (x : Name) :
    (⟨(renamedIncoming program.function tree inserted
      (initialIncoming program.function (.insertedPhi t x))).map
        fun entry => (entry.1,.collection entry.2)⟩ : Phi).incoming.lookup s =
      some (.collection (.name
        (nearest program.function tree inserted (endPoint program.function s) x))) := by
  have reached := (tree.preorder_reachable s).mpr reachable
  have source : (initialIncoming program.function (.insertedPhi t x)).lookup s = some (.name x) := by
    simp only [initialIncoming]
    exact lookup_map_key (f := id) Function.injective_id (fun _ => Value.name x)
      (mem_predecessors.mpr edge)
  rw [lookup_map_value fun _ value => Element.collection value,renamedIncoming_lookup reached,source]
  rfl

variable {taken : List (Name × Option (RtValue Stamp))}
  {taken' : List (Name × Option (RtValue Nat))}
  (isTaken : incomingValues block.phis s state.env = some taken)
  (isTaken' : incomingValues (constructedBlock program.function tree inserted t block).phis s
    values.env = some taken')

include isTaken in
omit renamable placed closed reachable found edge found' named in
theorem entered_other {n : Name} (absent : n ∉ block.phis.map Prod.fst) :
    (entered state taken).env n = state.env n ∧ (entered state taken).defined n = state.defined n := by
  have none : taken.lookup n = none := by
    rw [incomingValues_lookup isTaken,lookup_names absent]
    rfl
  exact ⟨by simp [entered,none],by simp [entered,none]⟩

include isTaken' in
omit renamable placed closed reachable found edge named found' in
theorem entered_values_other {n : Name} (absent : n ∉ block.phis.map Prod.fst)
    (absent' : ∀ x ∈ insertedAt inserted t, n ≠ .insertedPhi t x) :
    (entered values taken').env n = values.env n := by
  have missing : n ∉ (constructedBlock program.function tree inserted t block).phis.map Prod.fst := by
    rw [constructedBlock_phis,List.mem_append,not_or]
    refine ⟨absent,fun member => ?_⟩
    obtain ⟨x,inInserted,rfl⟩ := List.mem_map.mp member
    exact absent' x inInserted rfl
  have none : taken'.lookup n = none := by
    rw [incomingValues_lookup isTaken',lookup_names missing]
    rfl
  simp [entered,none]

include isTaken isTaken'

/-- A PHI node of the program stands for the same value on both machines. -/
theorem Named.entered_phi {n : Name} (member : n ∈ block.phis.map Prod.fst) :
    ∃ value, (entered state taken).env n = value ∧ (entered state taken).defined n = value ∧
      (entered values taken').env n = value.map (RtValue.map token) ∧
      ∀ v, value = some v → (∃ w, v = .word w) ∨ ∃ m, state.env m = some v := by
  obtain ⟨phi,is⟩ : ∃ phi, block.phis.lookup n = some phi := by
    cases lookup : block.phis.lookup n with
    | some phi => exact ⟨phi,rfl⟩
    | none =>
      obtain ⟨entry,inPhis,rfl⟩ := List.mem_map.mp member
      exact absurd (List.lookup_eq_none_iff.mp lookup entry inPhis) (by simp)
  obtain ⟨j,bound,at_⟩ := List.mem_iff_getElem.mp (mem_of_lookup is)
  have at' := (List.getElem?_eq_getElem bound).trans (congrArg some at_)
  obtain ⟨element,isElement⟩ : ∃ element, phi.incoming.lookup s = some element := by
    have source := (program.incoming t block found' n phi (mem_of_lookup is)).mem_iff.mpr
      (mem_predecessors.mpr edge)
    cases lookup : phi.incoming.lookup s with
    | some element => exact ⟨element,rfl⟩
    | none =>
      obtain ⟨entry,inIncoming,rfl⟩ := List.mem_map.mp source
      exact absurd (List.lookup_eq_none_iff.mp lookup entry inIncoming) (by simp)
  obtain ⟨element',isElement',same⟩ :=
    named.taken renamable placed closed reachable found edge found' at' isElement
  have lookup : taken.lookup n = some (evaluate state.env element) := by
    rw [incomingValues_lookup isTaken,is,Option.bind_some,isElement]
    rfl
  have lookup' : taken'.lookup n = some (evaluate values.env element') := by
    rw [incomingValues_lookup isTaken',constructed_lookup,is]
    simp [isElement']
  refine ⟨evaluate state.env element,by simp [entered,lookup],by simp [entered,lookup],
    by simp [entered,lookup',same],?_⟩
  intro v isValue
  rcases element with (w | m) | (m | _ | _)
  · exact .inl ⟨w,(Option.some.inj isValue).symm⟩
  · exact .inr ⟨m,isValue⟩
  · exact .inr ⟨m,isValue⟩
  · exact absurd isValue (by simp [evaluate])
  · exact absurd isValue (by simp [evaluate])

omit renamable closed named isTaken placed found in
theorem entered_inserted {x : Name} (member : x ∈ insertedAt inserted t) :
    (entered values taken').env (.insertedPhi t x) =
      values.env (nearest program.function tree inserted (endPoint program.function s) x) := by
  have absent : Name.insertedPhi t x ∉ block.phis.map Prod.fst := by
    intro named
    obtain ⟨j,same⟩ := program.mem_phis found' named
    exact absurd same (by simp)
  have injective : Function.Injective (Name.insertedPhi t) := fun _ _ same =>
    (Name.insertedPhi.inj same).2
  have lookup : taken'.lookup (.insertedPhi t x) = some (values.env
      (nearest program.function tree inserted (endPoint program.function s) x)) := by
    rw [incomingValues_lookup isTaken',constructed_lookup,lookup_names absent,
      lookup_map_key injective _ member]
    simp [inserted_taken reachable edge x,evaluate]
  simp [entered,lookup]

/-- From the end of a block into the next one. -/
theorem Named.enter (unshared : Unshared program tree) :
    Named program tree inserted token t 0 (entered state taken) (entered values taken') := by
  have phis := fun {n : Name} (member : n ∈ block.phis.map Prod.fst) =>
    named.entered_phi renamable placed closed reachable found edge found' isTaken isTaken' member
  have firsts : ∀ n, ¬ Name.IsNew n → program.function.splitResult n = false →
      (entered values taken').env n = ((entered state taken).defined n).map (RtValue.map token) := by
    intro n old plain
    by_cases member : n ∈ block.phis.map Prod.fst
    · obtain ⟨value,_,defined,same,_⟩ := phis member
      rw [same,defined]
    · rw [entered_values_other isTaken' member (by rintro x _ rfl; exact old trivial),
        (entered_other isTaken member).2]
      exact named.firsts n old plain
  refine ⟨firsts,?_,?_⟩
  · intro n scalar
    by_cases member : n ∈ block.phis.map Prod.fst
    · obtain ⟨value,env,defined,_,_⟩ := phis member
      rw [env,defined]
    · rw [(entered_other isTaken member).1,(entered_other isTaken member).2]
      exact named.scalars n scalar
  · intro x variable_ live d isNearest
    have old := Program.not_isNew_variable variable_
    have elsewhere : (∀ j, x ≠ .phi t j) → x ∉ block.phis.map Prod.fst := by
      intro apart member
      obtain ⟨j,same⟩ := program.mem_phis found' member
      exact apart j same
    rcases nearest_edge placed closed unshared found edge reachable variable_ live isNearest with
      ⟨j,is,rfl⟩ | ⟨member,rfl⟩ | ⟨apart,absent,isNearest⟩
    · have plain : program.function.splitResult d = false := by
        rw [is]
        rfl
      have member : d ∈ block.phis.map Prod.fst := by
        rcases (mem_memoirNames.mp variable_).2 with ⟨k,_,same⟩ | ⟨block',inBlocks,defined⟩
        · exact absurd (is.symm.trans same) (by simp)
        · obtain ⟨b,bound,rfl⟩ := List.mem_iff_getElem.mp inBlocks
          have at_ := List.getElem?_eq_getElem bound
          have here := program.names_block at_ defined
          rw [is] at here
          obtain rfl := Option.some.inj here
          obtain rfl := Option.some.inj (at_.symm.trans found')
          refine (List.mem_append.mp defined).resolve_right fun inBody => ?_
          obtain ⟨k,_,same⟩ := program.mem_body found' inBody
          exact absurd (is.symm.trans same) (by simp)
      obtain ⟨value,env,_,same,_⟩ := phis member
      rw [same,env]
    · have apart : ∀ j, x ≠ .phi t j := by
        rintro j rfl
        exact ((placed.above t _ member).2 t rfl).2 rfl
      have ready : Ready program tree x (endPoint program.function s) := by
        refine ready_incoming placed (mem_collectionPhis.mpr (.inr ⟨x,rfl,member⟩)) edge reachable ?_
        simp only [initialIncoming,List.mem_map,Prod.mk.injEq]
        exact ⟨s,mem_predecessors.mpr edge,rfl,trivial⟩
      rw [entered_inserted reachable edge found' isTaken' member,
        (entered_other isTaken (elsewhere apart)).1]
      exact named.outgoing renamable placed closed reachable found (.edge found edge apart live) ready
    · have other : d ∉ block.phis.map Prod.fst := by
        intro member
        obtain ⟨j,rfl⟩ := program.mem_phis found' member
        rcases version_phi variable_ isNearest.1 rfl with ⟨k,same,_⟩ | ⟨_,same⟩
        · exact apart k same
        · exact absurd same (by simp)
      have other' : ∀ y ∈ insertedAt inserted t, d ≠ .insertedPhi t y := by
        rintro y member rfl
        obtain ⟨rfl,_⟩ := inserted_version variable_ isNearest.1
        exact absent member
      rw [entered_values_other isTaken' other other',(entered_other isTaken (elsewhere apart)).1]
      exact named.versions x variable_ (.edge found edge apart live) d isNearest

theorem Stored.enter (stored : Stored token state values) :
    Stored token (entered state taken) (entered values taken') := by
  have phis := fun {n : Name} (member : n ∈ block.phis.map Prod.fst) =>
    named.entered_phi renamable placed closed reachable found edge found' isTaken isTaken' member
  have made : ∀ n value, (entered state taken).env n = some value ∨
      (entered state taken).defined n = some value → ∀ stamp ∈ value.references, Seen state stamp := by
    intro n value is
    by_cases member : n ∈ block.phis.map Prod.fst
    · obtain ⟨v,env,defined,_,origin⟩ := phis member
      rw [env,defined,or_self] at is
      rcases origin value is with ⟨w,rfl⟩ | ⟨m,at_⟩
      · exact fun stamp member => absurd member List.not_mem_nil
      · exact stored.env m value at_
    · rw [(entered_other isTaken member).1,(entered_other isTaken member).2] at is
      exact is.elim (stored.env n value) (stored.defined n value)
  exact ⟨stored.handles,stored.tokens,stored.contents,fun n value is => made n value (.inl is),
    fun n value is => made n value (.inr is),stored.trace⟩

end

end Construction
end Memoir
