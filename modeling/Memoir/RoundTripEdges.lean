import Memoir.RoundTripSteps

/-! The lowered function follows the function in place along the edges of the graph. -/
namespace Memoir.Construction.RoundTrip
open Dominance Destruction
open Unversioned (Covers)

section
variable {program : Program} {tree : Tree program.function} {inserted : List (Name × List Nat)}
  {tree' : Tree (constructed program.function tree inserted)} {f : Value → Value}
  {s t : Nat} {source block : BasicBlock} {env env' : Env Nat}

/-- The PHI nodes of the lowered block. -/
noncomputable def loweredPhis (program : Program) (tree : Tree program.function)
    (inserted : List (Name × List Nat)) (f : Value → Value) (t : Nat) (block : BasicBlock) :
    List (Name × Phi) :=
  (constructedBlock program.function tree inserted t block).phis.map fun entry =>
    (entry.1,entry.2.mapCollections f)

theorem loweredPhis_lookup (n : Name) : (loweredPhis program tree inserted f t block).lookup n =
    ((constructedBlock program.function tree inserted t block).phis.lookup n).map
      (Phi.mapCollections f) :=
  lookup_map_value (fun _ => Phi.mapCollections f) _ n

theorem mapCollections_lookup (phi : Phi) : (phi.mapCollections f).incoming.lookup s =
    (phi.incoming.lookup s).map (Element.mapCollection f) :=
  lookup_map_value (fun _ => Element.mapCollection f) phi.incoming s

theorem phi_member {x : Name} {j : Nat} (variable_ : x ∈ memoirNames program.function)
    (found' : program.function.blocks[t]? = some block) (is : x = .phi t j) :
    x ∈ block.phis.map Prod.fst := by
  rcases (mem_memoirNames.mp variable_).2 with ⟨k,_,same⟩ | ⟨block',inBlocks,defined⟩
  · exact absurd (is.symm.trans same) (by simp)
  · obtain ⟨b,bound,rfl⟩ := List.mem_iff_getElem.mp inBlocks
    have at_ := List.getElem?_eq_getElem bound
    have here := program.names_block at_ defined
    rw [is] at here
    obtain rfl := Option.some.inj here
    obtain rfl := Option.some.inj (at_.symm.trans found')
    refine (List.mem_append.mp defined).resolve_right fun inBody => ?_
    obtain ⟨k,_,same⟩ := program.mem_body found' inBody
    exact absurd (is.symm.trans same) (by simp)

variable (ends : Ends program tree inserted tree' f) (renamable : Renamable program tree)
  (placed : Placed program inserted) (closed : Closed tree inserted)
  (mirrored : Mirrored program tree inserted f s source.body.length env env')
  (reachable : program.function.graph.Reachable s)
  (found : program.function.blocks[s]? = some source)
  (edge : t ∈ program.function.successors s)
  (found' : program.function.blocks[t]? = some block)
include ends renamable placed closed mirrored reachable found

/-- The version of a variable that leaves a block. -/
theorem Mirrored.outgoing {x : Name} (ready : Ready program tree x (endPoint program.function s)) :
    evaluate env' (.collection (f (rename (nearest program.function tree inserted
      (endPoint program.function s)) (.name x)))) = env x := by
  have same : endPoint program.function s = .before s source.body.length := by
    simp [endPoint,found]
  rw [same] at ready ⊢
  have nearest := nearest_of_ready placed (renamable.walkable placed closed) reachable found
    (Nat.le_refl _) ready
  obtain ⟨e,is,version,above,fixed⟩ := ends.version renamable placed closed ready.1 nearest.1 nearest.2.1
    reachable
  simp only [rename,is,evaluate]
  exact mirrored.versions x ready.1 e version above fixed

include edge found'

/-- A PHI node of the program takes the same value from the edge. -/
theorem Mirrored.takes {j : Nat} {n : Name} {phi : Phi} (at_ : block.phis[j]? = some (n,phi))
    {element : Element} (is : phi.incoming.lookup s = some element) :
    ∃ element', ((constructedPhi program.function tree inserted n phi).mapCollections f).incoming.lookup s =
        some element' ∧ evaluate env' element' = evaluate env element := by
  have inBlocks := List.mem_of_getElem? found'
  have inPhis := List.mem_of_getElem? at_
  have incoming := mem_of_lookup is
  have types := program.phi_types block inBlocks n phi inPhis
  rw [mapCollections_lookup]
  unfold constructedPhi
  split_ifs with isCollection
  · rw [isCollection] at types
    obtain ⟨value,isValue⟩ := Option.isSome_iff_exists.mp (types _ incoming)
    obtain rfl : element = .collection value := by
      cases element with
      | scalar s => exact absurd isValue (by simp [Element.collection?])
      | collection v => exact congrArg _ (Option.some.inj isValue)
    have reached := (tree.preorder_reachable s).mpr reachable
    refine ⟨.collection (f (rename (nearest program.function tree inserted
      (endPoint program.function s)) value)),?_,?_⟩
    · rw [lookup_map_value fun _ value => Element.collection value,renamedIncoming_lookup reached,
        collections_lookup types,is]
      rfl
    · cases value with
      | constant k =>
        have fixed : f (.constant k) = .constant k := ends.constant rfl
        simp only [rename,fixed,evaluate]
      | null =>
        have fixed : f .null = .null := ends.constant rfl
        simp only [rename,fixed,evaluate]
      | name x =>
        have isPhi : n ∈ collectionPhis program.function inserted t :=
          mem_collectionPhis.mpr (.inl ⟨block,j,phi,found',at_,program.phi_at found' at_,isCollection⟩)
        refine mirrored.outgoing ends renamable placed closed reachable found
          (ready_incoming placed isPhi edge reachable ?_)
        rw [program.phi_at found' at_,initialIncoming_phi found' (program.phi_at found' at_ ▸ at_)]
        exact mem_collections.mpr incoming
  · rw [is]
    refine ⟨_,rfl,?_⟩
    rw [eq_false_of_ne_true isCollection] at types
    cases element with
    | collection v => exact absurd (types _ incoming) (by simp [Element.collection?])
    | scalar scalar =>
      cases scalar with
      | constant w => rfl
      | name m =>
        refine mirrored.scalar_name ?_ ((program.scalars block inBlocks).2.2.2 n phi inPhis s m incoming)
        exact (program.ssa.defined block inBlocks).2.2 n phi inPhis _ incoming m rfl

omit ends renamable placed closed mirrored reachable found found' in
/-- Every PHI node of the lowered function has a value for the edge. -/
theorem lowered_taken (found' : program.function.blocks[t]? = some block) (env : Env Nat) :
    ∃ taken, incomingValues (loweredPhis program tree inserted f t block) s env = some taken := by
  refine incomingValues_some fun entry member => ?_
  obtain ⟨⟨n,phi⟩,inPhis,rfl⟩ := List.mem_map.mp member
  rw [mapCollections_lookup,Option.isSome_map]
  exact constructed_incoming_some edge found' inPhis

variable {taken taken' : List (Name × Option (RtValue Nat))}
  (isTaken : incomingValues block.phis s env = some taken)
  (isTaken' : incomingValues (loweredPhis program tree inserted f t block) s env' = some taken')

omit ends renamable placed closed mirrored reachable found edge found' in
include isTaken in
theorem taken_other {n : Name} (absent : n ∉ block.phis.map Prod.fst) : taken.lookup n = none := by
  rw [incomingValues_lookup isTaken,lookup_names absent]
  rfl

omit ends renamable placed closed mirrored reachable found edge found' in
include isTaken' in
theorem lowered_other {n : Name} (absent : n ∉ block.phis.map Prod.fst)
    (absent' : ∀ x ∈ insertedAt inserted t, n ≠ .insertedPhi t x) : taken'.lookup n = none := by
  have missing : n ∉ (constructedBlock program.function tree inserted t block).phis.map Prod.fst := by
    rw [constructedBlock_phis,List.mem_append,not_or]
    refine ⟨absent,fun member => ?_⟩
    obtain ⟨x,inInserted,rfl⟩ := List.mem_map.mp member
    exact absent' x inInserted rfl
  rw [incomingValues_lookup isTaken',loweredPhis_lookup,lookup_names missing]
  rfl

include isTaken isTaken'

theorem Mirrored.phi {n : Name} (member : n ∈ block.phis.map Prod.fst) :
    ∃ value, taken.lookup n = some value ∧ taken'.lookup n = some value := by
  obtain ⟨phi,is⟩ : ∃ phi, block.phis.lookup n = some phi := by
    cases lookup : block.phis.lookup n with
    | some phi => exact ⟨phi,rfl⟩
    | none =>
      obtain ⟨entry,inPhis,rfl⟩ := List.mem_map.mp member
      exact absurd (List.lookup_eq_none_iff.mp lookup entry inPhis) (by simp)
  obtain ⟨j,bound,at_⟩ := List.mem_iff_getElem.mp (mem_of_lookup is)
  have at' := (List.getElem?_eq_getElem bound).trans (congrArg some at_)
  obtain ⟨element,isElement⟩ : ∃ element, phi.incoming.lookup s = some element := by
    have source := (program.incoming t block found' n phi (mem_of_lookup is)).mem_iff.mpr
      (mem_predecessors.mpr edge)
    cases lookup : phi.incoming.lookup s with
    | some element => exact ⟨element,rfl⟩
    | none =>
      obtain ⟨entry,inIncoming,rfl⟩ := List.mem_map.mp source
      exact absurd (List.lookup_eq_none_iff.mp lookup entry inIncoming) (by simp)
  obtain ⟨element',isElement',same⟩ :=
    mirrored.takes ends renamable placed closed reachable found edge found' at' isElement
  refine ⟨evaluate env element,?_,?_⟩
  · rw [incomingValues_lookup isTaken,is,Option.bind_some,isElement]
    rfl
  · rw [incomingValues_lookup isTaken',loweredPhis_lookup,constructed_lookup,is]
    simp [isElement',same]

omit isTaken in
theorem Mirrored.phi_inserted {x : Name} (member : x ∈ insertedAt inserted t) :
    taken'.lookup (.insertedPhi t x) = some (env x) := by
  have absent : Name.insertedPhi t x ∉ block.phis.map Prod.fst := by
    intro named
    obtain ⟨j,same⟩ := program.mem_phis found' named
    exact absurd same (by simp)
  have injective : Function.Injective (Name.insertedPhi t) := fun _ _ same =>
    (Name.insertedPhi.inj same).2
  have ready : Ready program tree x (endPoint program.function s) := by
    refine ready_incoming placed (mem_collectionPhis.mpr (.inr ⟨x,rfl,member⟩)) edge reachable ?_
    simp only [initialIncoming,List.mem_map,Prod.mk.injEq]
    exact ⟨s,mem_predecessors.mpr edge,rfl,trivial⟩
  have outgoing := mirrored.outgoing ends renamable placed closed reachable found ready
  rw [incomingValues_lookup isTaken',loweredPhis_lookup,constructed_lookup,lookup_names absent,
    lookup_map_key injective _ member]
  simp [mapCollections_lookup,inserted_taken reachable edge x,Element.mapCollection,← outgoing,rename]

/-- From the end of a block into the next one. -/
theorem Mirrored.enter : Mirrored program tree inserted f t 0
    (fun n => (taken.lookup n).getD (env n)) (fun n => (taken'.lookup n).getD (env' n)) where
  names := by
    intro n old plain
    by_cases member : n ∈ block.phis.map Prod.fst
    · obtain ⟨value,is,is'⟩ := mirrored.phi ends renamable placed closed reachable found edge found'
        isTaken isTaken' member
      simp only [is,is',Option.getD_some]
    · rw [taken_other isTaken member,lowered_other isTaken' member (by rintro x _ rfl; exact old trivial)]
      exact mirrored.names n old plain
  versions := by
    intro x variable_ e version above fixed
    have elsewhere : (∀ j, x ≠ .phi t j) → x ∉ block.phis.map Prod.fst := by
      intro apart member
      obtain ⟨j,same⟩ := program.mem_phis found' member
      exact apart j same
    rcases dominates_first above with here | above
    · rcases version_phi variable_ version here with ⟨j,is,rfl⟩ | ⟨member,rfl⟩
      · obtain ⟨value,is,is'⟩ := mirrored.phi ends renamable placed closed reachable found edge found'
          isTaken isTaken' (phi_member variable_ found' is)
        simp only [is,is',Option.getD_some]
      · have apart : ∀ j, x ≠ .phi t j := by
          rintro j rfl
          exact ((placed.above t _ member).2 t rfl).2 rfl
        have is := mirrored.phi_inserted ends renamable placed closed reachable found edge found'
          isTaken' member
        simp only [is,taken_other isTaken (elsewhere apart),Option.getD_some,Option.getD_none]
    · have apart : ∀ j, x ≠ .phi t j := by
        rintro j rfl
        exact (variable_dominates tree placed variable_ version above rfl).2 rfl
      have below : dominates tree e (.before s source.body.length) = true :=
        dominates_end variable_ version found edge above
      have other : e.block? ≠ some t := by
        intro here
        obtain ⟨a,same,strict⟩ := above.resolve_left (by simp [here])
        obtain rfl := Option.some.inj (same.symm.trans here)
        exact strict.2 rfl
      have absent : e ∉ block.phis.map Prod.fst := by
        intro member
        obtain ⟨j,rfl⟩ := program.mem_phis found' member
        exact other rfl
      rw [taken_other isTaken (elsewhere apart),
        lowered_other isTaken' absent (by rintro y _ rfl; exact other rfl)]
      exact mirrored.versions x variable_ e version below fixed

end
end Memoir.Construction.RoundTrip
