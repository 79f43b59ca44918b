import Mathlib.Data.List.Basic
import Mathlib.Data.List.Perm.Subperm
import Mathlib.Logic.Function.Basic
import Mathlib.Logic.Relation

/-! Depth-first walks that hand the visited nodes down by value, so that a branch knows the nodes
above it and no others. Each node gathers what its callees have gathered by then. -/
namespace Memoir
namespace PathWalk

/-- A fold of steps that add to a list. -/
theorem mem_foldl_adding {β γ : Type} {step : List β → γ → List β} (Adds : γ → β → Prop)
    (adding : ∀ facts item fact, fact ∈ step facts item ↔ fact ∈ facts ∨ Adds item fact)
    (items : List γ) {facts : List β} {fact : β} :
    fact ∈ items.foldl step facts ↔ fact ∈ facts ∨ ∃ item ∈ items, Adds item fact := by
  induction items generalizing facts with
  | nil => simp
  | cons item items ih => simp [ih,adding,or_assoc]

section
variable {α β : Type} [DecidableEq α] [DecidableEq β]

def insertNew (facts : List β) (fact : β) : List β :=
  if fact ∈ facts then facts else facts ++ [fact]

/-- What each node has gathered. -/
abbrev Gathered (α β : Type) := α → List β

def Gathered.add (gathered : Gathered α β) (node : α) (facts : List β) : Gathered α β :=
  Function.update gathered node (facts.foldl insertNew (gathered node))

def walk (calls : α → List (Option α)) (own : α → List β) :
    Nat → List α → α → Gathered α β → Gathered α β
  | 0,_,_,gathered => gathered
  | depth + 1,visited,node,gathered =>
    let visited := node :: visited
    let gathered := (calls node).foldl (fun gathered called => match called with
      | none => gathered
      | some callee =>
        let gathered := if callee ∈ visited then gathered
          else walk calls own depth visited callee gathered
        gathered.add node (gathered callee)) gathered
    gathered.add node (own node)

theorem mem_insertNew {facts : List β} {fact fact' : β} :
    fact' ∈ insertNew facts fact ↔ fact' ∈ facts ∨ fact' = fact := by
  unfold insertNew
  split_ifs with there
  · exact ⟨.inl,fun either => either.elim id fun same => same ▸ there⟩
  · simp

theorem mem_foldl_insertNew {facts added : List β} {fact : β} :
    fact ∈ added.foldl insertNew facts ↔ fact ∈ facts ∨ fact ∈ added := by
  rw [mem_foldl_adding (fun added fact => fact = added) fun _ _ _ => mem_insertNew]
  simp

@[simp] theorem Gathered.add_nil (gathered : Gathered α β) (node : α) : gathered.add node [] = gathered :=
  Function.update_eq_self node gathered

@[simp] theorem Gathered.mem_add {gathered : Gathered α β} {node other : α} {facts : List β} {fact : β} :
    fact ∈ gathered.add node facts other ↔ fact ∈ gathered other ∨ other = node ∧ fact ∈ facts := by
  unfold Gathered.add
  by_cases same : other = node
  · subst same
    simp [mem_foldl_insertNew]
  · simp [same]

end

section
variable {α β : Type} (calls : α → List (Option α)) (own : α → List β) (start : α)

/-- A route with the nodes above its end. No node but the end is there twice. -/
inductive Trip : List Nat → List α → α → Prop
  | start : Trip [] [] start
  | call {route : List Nat} {above : List α} {node callee : α} {index : Nat} :
    Trip route above node → node ∉ above → (calls node)[index]? = some (some callee) →
    Trip (index :: route) (node :: above) callee

def Below (common route : List Nat) (node : α) : Prop :=
  ∃ part above, common <:+ part ∧ part <:+ route ∧ Trip calls start part above node

def Passed (earlier route : List Nat) (node : α) : Prop :=
  ∃ common before after index index', earlier = before ++ index :: common ∧
    route = after ++ index' :: common ∧ index < index' ∧ Below calls start common earlier node

/-- A route that ends at a node that has a fact, or at a node that an earlier such route has
passed. -/
inductive Carried (fact : β) : List Nat → Prop
  | own {route : List Nat} {above : List α} {node : α} :
    Trip calls start route above node → node ∉ above → fact ∈ own node → Carried fact route
  | next {route earlier : List Nat} {above : List α} {node : α} :
    Trip calls start route above node → Carried fact earlier → Passed calls start earlier route node →
    Carried fact route

def Has (fact : β) (route : List Nat) (node : α) : Prop :=
  ∃ earlier, Carried calls own start fact earlier ∧ Passed calls start earlier route node

def Under (fact : β) (route : List Nat) (node : α) : Prop :=
  ∃ inner, Carried calls own start fact inner ∧ Below calls start route inner node

end

section
variable {α β : Type} {calls : α → List (Option α)} {own : α → List β} {start : α}
variable {route part common earlier : List Nat} {above above' : List α} {node node' : α} {fact : β}

theorem Trip.unique (trip : Trip calls start route above node) :
    ∀ {above' node'}, Trip calls start route above' node' → above = above' ∧ node = node' := by
  induction trip with
  | start =>
    rintro _ _ ⟨⟩
    exact ⟨rfl,rfl⟩
  | call _ _ called ih =>
    rintro _ _ (_ | ⟨trip',_,called'⟩)
    obtain ⟨rfl,rfl⟩ := ih trip'
    rw [called] at called'
    exact ⟨rfl,Option.some.inj (Option.some.inj called')⟩

/-- Where a route goes on, its node is new. -/
theorem Trip.suffix (trip : Trip calls start route above node) (isPart : part <:+ route) :
    part = route ∨ ∃ above' node', Trip calls start part above' node' ∧ node' ∉ above' ∧ node' ∈ above := by
  induction trip with
  | start => exact .inl (List.suffix_nil.mp isPart)
  | call trip fresh called ih =>
    rcases List.suffix_cons_iff.mp isPart with same | isPart
    · exact .inl same
    · rcases ih isPart with rfl | ⟨above',node',trip',fresh',member⟩
      · exact .inr ⟨_,_,trip,fresh,by simp⟩
      · exact .inr ⟨_,_,trip',fresh',by simp [member]⟩

theorem Trip.at_above (trip : Trip calls start route above node) (member : node' ∈ above) :
    ∃ part above', part <:+ route ∧ Trip calls start part above' node' ∧ node' ∉ above' := by
  induction trip with
  | start => exact absurd member (by simp)
  | call trip fresh _ ih =>
    rcases List.mem_cons.mp member with rfl | member
    · exact ⟨_,_,List.suffix_cons _ _,trip,fresh⟩
    · obtain ⟨part,above',isPart,found⟩ := ih member
      exact ⟨part,above',isPart.trans (List.suffix_cons _ _),found⟩

theorem Trip.nodup (trip : Trip calls start route above node) : above.Nodup := by
  induction trip with
  | start => exact .nil
  | call _ fresh _ ih => exact List.nodup_cons.mpr ⟨fresh,ih⟩

theorem Trip.nodes {nodes : List α} (trip : Trip calls start route above node) (isStart : start ∈ nodes)
    (closed : ∀ node ∈ nodes, ∀ callee, some callee ∈ calls node → callee ∈ nodes) :
    node ∈ nodes ∧ ∀ node' ∈ above, node' ∈ nodes := by
  induction trip with
  | start => exact ⟨isStart,by simp⟩
  | call _ _ called ih =>
    exact ⟨closed _ ih.1 _ (List.mem_of_getElem? called),by simpa using ih⟩

theorem Carried.trip (carried : Carried calls own start fact route) :
    ∃ above node, Trip calls start route above node := by
  cases carried with
  | own trip => exact ⟨_,_,trip⟩
  | next trip => exact ⟨_,_,trip⟩

theorem Below.mono {common' route' : List Nat} (below : Below calls start common route node)
    (wider : common' <:+ common) (longer : route <:+ route') : Below calls start common' route' node := by
  obtain ⟨part,above,isBelow,isPart,trip⟩ := below
  exact ⟨part,above,wider.trans isBelow,isPart.trans longer,trip⟩

/-- The node of a route, or one that is further down. -/
theorem below_iff {index : Nat} (trip : Trip calls start route above node)
    (longer : (index :: route) <:+ earlier) : Below calls start route earlier node' ↔
      node' = node ∨ Below calls start (index :: route) earlier node' := by
  constructor
  · rintro ⟨part,above',isBelow,isPart,trip'⟩
    rcases List.suffix_or_suffix_of_suffix isPart longer with shorter | further
    · rcases List.suffix_cons_iff.mp shorter with rfl | shorter
      · exact .inr ⟨_,_,List.suffix_rfl,longer,trip'⟩
      · obtain rfl := shorter.eq_of_length_le isBelow.length_le
        exact .inl (trip'.unique trip).2
    · exact .inr ⟨part,above',further,isPart,trip'⟩
  · rintro (rfl | below)
    · exact ⟨route,above,List.suffix_rfl,(List.suffix_cons _ _).trans longer,trip⟩
    · exact below.mono (List.suffix_cons _ _) List.suffix_rfl

/-- What the walk has passed at the call of an index: what it had passed at the node, and the
calls before. -/
theorem passed_cons {index : Nat} : Passed calls start earlier (index :: route) node ↔
    Passed calls start earlier route node ∨
      ∃ index' < index, (index' :: route) <:+ earlier ∧ Below calls start route earlier node := by
  constructor
  · rintro ⟨common,before,after,first,second,isEarlier,isRoute,less,below⟩
    cases after with
    | nil =>
      obtain ⟨rfl,rfl⟩ := List.cons.inj isRoute
      exact .inr ⟨first,less,⟨before,isEarlier.symm⟩,below⟩
    | cons _ after =>
      exact .inl ⟨common,before,after,first,second,isEarlier,(List.cons.inj isRoute).2,less,below⟩
  · rintro (⟨common,before,after,first,second,isEarlier,rfl,less,below⟩ | ⟨first,less,⟨before,isEarlier⟩,below⟩)
    · exact ⟨common,before,index :: after,first,second,isEarlier,rfl,less,below⟩
    · exact ⟨route,before,[],first,index,isEarlier.symm,rfl,less,below⟩

theorem has_cons {index : Nat} : Has calls own start fact (index :: route) node ↔
    Has calls own start fact route node ∨ ∃ index' < index, ∃ inner,
      Carried calls own start fact inner ∧ (index' :: route) <:+ inner ∧ Below calls start route inner node := by
  simp only [Has,passed_cons]
  constructor
  · rintro ⟨inner,carried,passed | ⟨index',less,longer,below⟩⟩
    · exact .inl ⟨inner,carried,passed⟩
    · exact .inr ⟨index',less,inner,carried,longer,below⟩
  · rintro (⟨inner,carried,passed⟩ | ⟨index',less,inner,carried,longer,below⟩)
    · exact ⟨inner,carried,.inl passed⟩
    · exact ⟨inner,carried,.inr ⟨index',less,longer,below⟩⟩

theorem has_start : ¬ Has calls own start fact [] node := by
  rintro ⟨_,_,_,_,_,_,_,_,same,_⟩
  exact absurd same (by simp)

theorem has_zero : Has calls own start fact (0 :: route) node ↔ Has calls own start fact route node := by
  rw [has_cons]
  simp

theorem has_succ {index : Nat} : Has calls own start fact ((index + 1) :: route) node ↔
    Has calls own start fact (index :: route) node ∨ ∃ inner, Carried calls own start fact inner ∧
      (index :: route) <:+ inner ∧ Below calls start route inner node := by
  rw [has_cons,has_cons,or_assoc]
  constructor
  · rintro (has | ⟨index',less,inside⟩)
    · exact .inl has
    · rcases Nat.lt_succ_iff_lt_or_eq.mp less with less | rfl
      · exact .inr (.inl ⟨index',less,inside⟩)
      · exact .inr (.inr inside)
  · rintro (has | ⟨index',less,inside⟩ | inside)
    · exact .inl has
    · exact .inr ⟨index',Nat.lt_succ_of_lt less,inside⟩
    · exact .inr ⟨index,Nat.lt_succ_self _,inside⟩

/-- A call of a node that is on the path. -/
theorem through_visited {index : Nat} {callee : α} (trip : Trip calls start route above node)
    (inside : Trip calls start (index :: route) (node :: above) callee) (visited : callee ∈ node :: above) :
    (∃ inner, Carried calls own start fact inner ∧ (index :: route) <:+ inner ∧
      Below calls start route inner node') ↔
    (node' = node ∨ node' = callee) ∧ Has calls own start fact (index :: route) callee := by
  constructor
  · rintro ⟨inner,carried,longer,below⟩
    obtain ⟨_,_,innerTrip⟩ := carried.trip
    rcases innerTrip.suffix longer with rfl | ⟨_,_,trip',fresh,_⟩
    · refine ⟨((below_iff trip List.suffix_rfl).mp below).imp_right ?_,?_⟩
      · rintro ⟨part,_,isBelow,isPart,partTrip⟩
        obtain rfl := isPart.eq_of_length_le isBelow.length_le
        exact (partTrip.unique inside).2
      · cases carried with
        | own trip' fresh =>
          obtain ⟨rfl,rfl⟩ := trip'.unique inside
          exact absurd visited fresh
        | next trip' carried passed =>
          obtain ⟨rfl,rfl⟩ := trip'.unique inside
          exact ⟨_,carried,passed⟩
    · obtain ⟨rfl,rfl⟩ := trip'.unique inside
      exact absurd visited fresh
  · rintro ⟨isNode,earlier,carried,passed⟩
    refine ⟨_,.next inside carried passed,List.suffix_rfl,(below_iff trip List.suffix_rfl).mpr ?_⟩
    exact isNode.imp_right fun same => ⟨_,_,List.suffix_rfl,List.suffix_rfl,same ▸ inside⟩

/-- What a callee has gathered when it returns. -/
theorem has_or_under {index : Nat} {callee : α}
    (inside : Trip calls start (index :: route) (node :: above) callee) :
    Has calls own start fact (index :: route) callee ∨ Under calls own start fact (index :: route) callee ↔
      ∃ inner, Carried calls own start fact inner ∧ (index :: route) <:+ inner := by
  constructor
  · rintro (⟨earlier,carried,passed⟩ | ⟨inner,carried,_,_,isBelow,isPart,_⟩)
    · exact ⟨_,.next inside carried passed,List.suffix_rfl⟩
    · exact ⟨inner,carried,isBelow.trans isPart⟩
  · rintro ⟨inner,carried,longer⟩
    exact .inr ⟨inner,carried,_,_,List.suffix_rfl,longer,inside⟩

/-- A call of a node that is not on the path. -/
theorem through_fresh {index : Nat} (trip : Trip calls start route above node) :
    (∃ inner, Carried calls own start fact inner ∧ (index :: route) <:+ inner ∧
      Below calls start route inner node') ↔
    Under calls own start fact (index :: route) node' ∨
      node' = node ∧ ∃ inner, Carried calls own start fact inner ∧ (index :: route) <:+ inner := by
  constructor
  · rintro ⟨inner,carried,longer,below⟩
    rcases (below_iff trip longer).mp below with same | below
    · exact .inr ⟨same,inner,carried,longer⟩
    · exact .inl ⟨inner,carried,below⟩
  · rintro (⟨inner,carried,below⟩ | ⟨same,inner,carried,longer⟩)
    · have longer : (index :: route) <:+ inner := by
        obtain ⟨_,_,isBelow,isPart,_⟩ := below
        exact isBelow.trans isPart
      exact ⟨inner,carried,longer,(below_iff trip longer).mpr (.inr below)⟩
    · exact ⟨inner,carried,longer,(below_iff trip longer).mpr (.inl same)⟩

theorem Carried.called {index : Nat} {inner : List Nat} (carried : Carried calls own start fact inner)
    (trip : Trip calls start route above node) (longer : (index :: route) <:+ inner) :
    ∃ callee, (calls node)[index]? = some (some callee) := by
  obtain ⟨_,_,innerTrip⟩ := carried.trip
  have stepped : ∃ above' callee, Trip calls start (index :: route) above' callee := by
    rcases innerTrip.suffix longer with same | ⟨_,_,trip',_⟩
    · exact ⟨_,_,same ▸ innerTrip⟩
    · exact ⟨_,_,trip'⟩
  obtain ⟨_,callee,stepped⟩ := stepped
  cases stepped with
  | call trip' _ called =>
    obtain ⟨rfl,rfl⟩ := trip'.unique trip
    exact ⟨callee,called⟩

/-- All calls of a node, and the facts of its own. -/
theorem under_iff (trip : Trip calls start route above node) (fresh : node ∉ above) :
    Has calls own start fact route node' ∨ Under calls own start fact route node' ↔
      Has calls own start fact ((calls node).length :: route) node' ∨ node' = node ∧ fact ∈ own node := by
  have same_end : Below calls start route route node' ↔ node' = node := by
    constructor
    · rintro ⟨part,_,isBelow,isPart,partTrip⟩
      obtain rfl := isPart.eq_of_length_le isBelow.length_le
      exact (partTrip.unique trip).2
    · rintro rfl
      exact ⟨_,_,List.suffix_rfl,List.suffix_rfl,trip⟩
  rw [has_cons]
  constructor
  · rintro (has | ⟨inner,carried,below⟩)
    · exact .inl (.inl has)
    · have longer : route <:+ inner := by
        obtain ⟨_,_,isBelow,isPart,_⟩ := below
        exact isBelow.trans isPart
      obtain ⟨before,rfl⟩ := longer
      rcases List.eq_nil_or_concat' before with rfl | ⟨before,index,rfl⟩
      · have isEnd := same_end.mp below
        subst isEnd
        cases carried with
        | own trip' _ isOwn =>
          obtain ⟨rfl,rfl⟩ := trip'.unique trip
          exact .inr ⟨rfl,isOwn⟩
        | next trip' carried passed =>
          obtain ⟨rfl,rfl⟩ := trip'.unique trip
          exact .inl (.inl ⟨_,carried,passed⟩)
      · have longer : (index :: route) <:+ before ++ [index] ++ route := ⟨before,by simp⟩
        obtain ⟨callee,called⟩ := carried.called trip longer
        obtain ⟨less,_⟩ := List.getElem?_eq_some_iff.mp called
        exact .inl (.inr ⟨index,less,_,carried,longer,below⟩)
  · rintro ((has | ⟨_,_,inner,carried,_,below⟩) | ⟨rfl,isOwn⟩)
    · exact .inl has
    · exact .inr ⟨inner,carried,below⟩
    · exact .inr ⟨route,.own trip fresh isOwn,same_end.mpr rfl⟩

end

section
variable {α β : Type} [DecidableEq α] [DecidableEq β]
variable {calls : α → List (Option α)} {own : α → List β} {start : α} {nodes : List α}

theorem walk_gathers (isStart : start ∈ nodes)
    (closed : ∀ node ∈ nodes, ∀ callee, some callee ∈ calls node → callee ∈ nodes)
    {fact : β} (depth : Nat) {route : List Nat} {above : List α} {node : α} {gathered : Gathered α β}
    (trip : Trip calls start route above node) (fresh : node ∉ above)
    (enough : nodes.length ≤ above.length + depth)
    (before : ∀ node', fact ∈ gathered node' ↔ Has calls own start fact route node') (node' : α) :
    fact ∈ walk calls own depth above node gathered node' ↔
      Has calls own start fact route node' ∨ Under calls own start fact route node' := by
  induction depth generalizing route above node gathered node' with
  | zero =>
    have isNodes := trip.nodes isStart closed
    have distinct : (node :: above).Nodup := List.nodup_cons.mpr ⟨fresh,trip.nodup⟩
    have bounded := (List.subperm_of_subset distinct (List.cons_subset.mpr isNodes)).length_le
    simp only [List.length_cons] at bounded
    omega
  | succ depth ih =>
    -- The calls after some of them.
    have calls_after (rest : List (Option α)) : ∀ (done : List (Option α)) (gathered : Gathered α β),
        done ++ rest = calls node →
        (∀ node', fact ∈ gathered node' ↔ Has calls own start fact (done.length :: route) node') →
        ∀ node', fact ∈ rest.foldl (fun gathered called => match called with
          | none => gathered
          | some callee =>
            let gathered := if callee ∈ node :: above then gathered
              else walk calls own depth (node :: above) callee gathered
            gathered.add node (gathered callee)) gathered node' ↔
          Has calls own start fact ((calls node).length :: route) node' := by
      induction rest with
      | nil =>
        intro done gathered isCalls before node'
        rw [← isCalls,List.append_nil]
        exact before node'
      | cons called rest ihRest =>
        intro done gathered isCalls before node'
        have isCalled : (calls node)[done.length]? = some called := by
          rw [← isCalls]
          simp
        rw [List.foldl_cons]
        refine ihRest (done ++ [called]) _ (by simpa using isCalls) ?_ node'
        intro node'
        rw [List.length_append,List.length_singleton,has_succ]
        cases called with
        | none =>
          refine (before node').trans ⟨.inl,fun either => either.elim id ?_⟩
          rintro ⟨inner,carried,longer,_⟩
          obtain ⟨callee,called⟩ := carried.called trip longer
          rw [isCalled] at called
          exact absurd called (by simp)
        | some callee =>
          have inside := Trip.call trip fresh isCalled
          simp only [Gathered.mem_add]
          split_ifs with visited
          · rw [before node',before callee,through_visited trip inside visited]
            constructor
            · rintro (has | ⟨isNode,has⟩)
              · exact .inl has
              · exact .inr ⟨.inl isNode,has⟩
            · rintro (has | ⟨isNode | rfl,has⟩)
              · exact .inl has
              · exact .inr ⟨isNode,has⟩
              · exact .inl has
          · have walked := ih inside visited (by simp only [List.length_cons]; omega) before
            rw [walked node',walked callee,has_or_under inside,through_fresh trip,or_assoc]
    rw [under_iff trip fresh]
    simp only [walk,Gathered.mem_add]
    rw [calls_after (calls node) [] gathered rfl fun node' => (before node').trans has_zero.symm]

/-- The walk of a whole graph. -/
theorem walk_iff (isStart : start ∈ nodes)
    (closed : ∀ node ∈ nodes, ∀ callee, some callee ∈ calls node → callee ∈ nodes) {fact : β} {node : α} :
    fact ∈ walk calls own nodes.length [] start (fun _ => []) node ↔
      ∃ route, Carried calls own start fact route ∧ Below calls start [] route node := by
  rw [walk_gathers isStart closed nodes.length .start (by simp) (by simp)
    fun _ => iff_of_false (by simp) has_start]
  exact ⟨fun either => either.elim (fun has => absurd has has_start) id,.inr⟩

end

section
variable {α β : Type} {calls : α → List (Option α)} {own : α → List β} {start : α}
variable {route : List Nat} {above : List α} {node node' : α} {fact : β}

/-- A node leads to another one by calls. -/
def Leads (calls : α → List (Option α)) : α → α → Prop :=
  Relation.ReflTransGen fun node callee => some callee ∈ calls node

theorem Trip.leads (trip : Trip calls start route above node) :
    (∀ node' ∈ above, Leads calls node' node) ∧ Leads calls start node := by
  induction trip with
  | start => exact ⟨by simp,.refl⟩
  | call _ _ called ih =>
    have step := List.mem_of_getElem? called
    refine ⟨fun node' member => ?_,ih.2.tail step⟩
    rcases List.mem_cons.mp member with rfl | member
    · exact .single step
    · exact (ih.1 node' member).tail step

theorem Below.leads (below : Below calls start [] route node') (trip : Trip calls start route above node) :
    Leads calls node' node := by
  obtain ⟨part,_,_,isPart,partTrip⟩ := below
  rcases trip.suffix isPart with rfl | ⟨_,_,partTrip',_,member⟩
  · obtain ⟨_,rfl⟩ := partTrip.unique trip
    exact .refl
  · obtain ⟨_,rfl⟩ := partTrip.unique partTrip'
    exact trip.leads.1 _ member

/-- What is carried along a node is a fact of a node that it leads to. -/
theorem Carried.leads (carried : Carried calls own start fact route) :
    ∀ {node}, Below calls start [] route node → ∃ other, Leads calls node other ∧ fact ∈ own other := by
  induction carried with
  | own trip _ isOwn => exact fun below => ⟨_,below.leads trip,isOwn⟩
  | next trip _ passed ih =>
    intro node below
    obtain ⟨_,_,_,_,_,_,_,_,belowEarlier⟩ := passed
    obtain ⟨other,leads,isOwn⟩ := ih (belowEarlier.mono List.nil_suffix List.suffix_rfl)
    exact ⟨other,(below.leads trip).trans leads,isOwn⟩

/-- There is a path without a repetition to each node that the start leads to. -/
theorem trip_of_leads (leads : Leads calls start node) :
    ∃ route above, Trip calls start route above node ∧ node ∉ above := by
  classical
  induction leads with
  | refl => exact ⟨[],[],.start,by simp⟩
  | @tail node callee _ step ih =>
    obtain ⟨route,above,trip,fresh⟩ := ih
    obtain ⟨index,called⟩ := List.mem_iff_getElem?.mp step
    have inside := Trip.call trip fresh called
    by_cases visited : callee ∈ node :: above
    · obtain ⟨part,above',_,trip',fresh'⟩ := inside.at_above visited
      exact ⟨part,above',trip',fresh'⟩
    · exact ⟨_,_,inside,visited⟩

theorem carried_of_own (leads : Leads calls start node) (isOwn : fact ∈ own node) :
    ∃ route, Carried calls own start fact route ∧ Below calls start [] route node := by
  obtain ⟨route,above,trip,fresh⟩ := trip_of_leads leads
  exact ⟨route,.own trip fresh isOwn,route,above,List.nil_suffix,List.suffix_rfl,trip⟩

end

end PathWalk
end Memoir
