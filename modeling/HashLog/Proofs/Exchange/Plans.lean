import HashLog.Exchange.Engine
import HashLog.Proofs.Exchange.Offers
/-!
What each phase of an exchange sends and asks for before it is held to a budget. The receiver plans
its answer to phase one against the initiator's frontier, the initiator its answer to phase two
against the receiver's, and the answer to phase three follows from what is asked for. A plan that the
limit does not cut leaves out nothing that the other side lacks and did not have the chance to ask
for; one that it does cut begins with a record that is new to the other side.
-/
namespace HashLog

/-- The hashes of records to send, and the hashes to ask for. -/
structure Plan where
  send : List Hash
  wanted : List Hash

namespace GraphView

/-- The plan for an answer to phase one. -/
def planFirst (view : GraphView) (m : Message) (limit : Nat) : Except Cycle Plan :=
  (view.offer m.begins m.ends limit).map fun offer => ⟨offer.send, []⟩

/-- The frontier hashes here that are none of the peer's and that no walk reached. -/
def unreached (view : GraphView) (m : Message) (offer : Offer) : List Hash :=
  (view.frontier.beginList ++ view.frontier.endList).filter fun hash =>
    !(HashSet.ofList (m.begins ++ m.ends)).contains hash &&
      !(HashSet.ofList offer.covered).contains hash

/-- The plan for an answer to phase two, with what the peer sent. -/
def planSecond (view : GraphView) (received : HashSet) (m : Message) (limit : Nat) :
    Except Cycle Plan :=
  match view.offer m.begins m.ends limit with
  | .error cycle => .error cycle
  | .ok offer => (view.component (view.unreached m offer) limit).map fun component =>
      ⟨(distinct (offer.send ++ component)).filter fun hash => !received.contains hash, offer.missing⟩

/-- The plan for an answer to phase three, with what the peer sent. -/
def planThird (view : GraphView) (received : HashSet) (m : Message) (limit : Nat) :
    Except Cycle Plan :=
  (view.component (m.wanted.filter fun hash => !received.contains hash) limit).map fun component =>
    ⟨component.filter fun hash => !received.contains hash, []⟩

end GraphView

namespace Plan

/-- A plan to send what shows here and was not received before, each record once. -/
structure Sends (shown : Finset Hash) (received : HashSet) (plan : Plan) : Prop where
  drawn : ∀ hash ∈ plan.send, hash ∈ shown
  distinct_send : plan.send.Nodup
  unsent : ∀ hash ∈ plan.send, hash ∉ received

/-- The plan asks for the frontier hashes of the peer that do not show here, each once. -/
structure Asks (records : Set Record) (shown peer : Finset Hash) (plan : Plan) : Prop where
  wanted : ∀ hash, hash ∈ plan.wanted ↔
    (IsBegin records peer hash ∨ IsEnd records peer hash) ∧ hash ∉ shown
  distinct_wanted : plan.wanted.Nodup

end Plan

variable {view : GraphView} {records : Set Record} {shown peer : Finset Hash} {received : HashSet}
  {m : Message} {limit : Nat} {plan : Plan} {hash : Hash}

theorem mem_unreceived {hashes : List Hash} :
    hash ∈ hashes.filter (fun hash => !received.contains hash) ↔ hash ∈ hashes ∧ hash ∉ received := by
  rw [List.mem_filter, Bool.not_eq_true', Bool.eq_false_iff, ne_eq, Std.TreeSet.contains_iff_mem]

private theorem filter_received_eq {hashes : List Hash} (none : ∀ hash, hash ∉ received) :
    hashes.filter (fun hash => !received.contains hash) = hashes := by
  apply List.filter_eq_self.mpr
  intro hash _
  rw [Bool.not_eq_true', Bool.eq_false_iff, ne_eq, Std.TreeSet.contains_iff_mem]
  exact none hash

/-! ## The answer to phase one -/

namespace Plan

/-- A plan for an answer to phase one. -/
structure First (records : Set Record) (shown peer : Finset Hash) (limit : Nat) (plan : Plan) :
    Prop where
  sends : plan.Sends shown ∅
  asks : plan.wanted = []
  first : 0 < limit → ∀ hash rest, plan.send = hash :: rest → hash ∉ peer
  idle : 0 < limit → plan.send = [] → Aligned records shown peer

end Plan

section First

variable (pictures : view.Pictures records shown) (consistent : Consistent records)
  (frontier : FrontierOf records peer m.begins m.ends)
include pictures consistent frontier

theorem GraphView.planFirst_spec (limit : Nat) :
    ∃ plan, view.planFirst m limit = .ok plan ∧ plan.First records shown peer limit := by
  obtain ⟨offer, offered, against⟩ := view.offer_against pictures limit consistent frontier
  refine ⟨⟨offer.send, []⟩, map_eq_ok.mpr ⟨offer, offered, rfl⟩, ⟨against.drawn, against.distinct_send,
    by simp⟩, rfl, against.first, fun room none => (against.idle room none).2⟩

theorem Plan.first_of_planned (planned : view.planFirst m limit = .ok plan) :
    plan.First records shown peer limit := by
  obtain ⟨_, made, spec⟩ := GraphView.planFirst_spec pictures consistent frontier limit
  exact Except.ok.inj (made.symm.trans planned) ▸ spec

theorem GraphView.planFirst_raises (whole : shown.card ≤ limit)
    (planned : view.planFirst m limit = .ok plan) : Raises records shown peer plan.send := by
  obtain ⟨offer, offered, rfl⟩ := map_eq_ok.mp planned
  exact view.offer_raises pictures consistent frontier whole offered

end First

/-! ## The answer to phase two -/

namespace Plan

/-- A plan for an answer to phase two. If nothing was received and the peer's frontier agrees with
that here as far as it goes, a plan with nothing in it means that both hold the same. -/
structure Second (records : Set Record) (shown peer : Finset Hash) (received : HashSet) (limit : Nat)
    (plan : Plan) : Prop where
  sends : plan.Sends shown received
  asks : plan.Asks records shown peer
  first : 0 < limit → (∀ hash, hash ∉ received) → Aligned records peer shown →
    ∀ hash rest, plan.send = hash :: rest → hash ∉ peer
  idle : 0 < limit → (∀ hash, hash ∉ received) → Aligned records peer shown →
    plan.send = [] → plan.wanted = [] → shown = peer
  same : 0 < limit → shown = peer → plan.send = [] ∧ plan.wanted = []

end Plan

section Second

variable (pictures : view.Pictures records shown) (consistent : Consistent records)
  (frontier : FrontierOf records peer m.begins m.ends)
include pictures frontier

theorem GraphView.mem_unreached (offer : Offer) : hash ∈ view.unreached m offer ↔
    (IsBegin records shown hash ∨ IsEnd records shown hash) ∧
      ¬ (IsBegin records peer hash ∨ IsEnd records peer hash) ∧ hash ∉ offer.covered := by
  rw [GraphView.unreached, List.mem_filter, List.mem_append, pictures.begins, pictures.ends,
    Bool.and_eq_true, Bool.not_eq_true', Bool.not_eq_true', Bool.eq_false_iff, Bool.eq_false_iff,
    ne_eq, ne_eq, Std.TreeSet.contains_iff_mem, Std.TreeSet.contains_iff_mem, HashSet.mem_ofList,
    HashSet.mem_ofList, List.mem_append, frontier.begins, frontier.ends]

include consistent

theorem GraphView.planSecond_cases (received : HashSet) (limit : Nat) : ∃ offer component,
    view.offer m.begins m.ends limit = .ok offer ∧ offer.Against records shown peer limit ∧
      view.component (view.unreached m offer) limit = .ok component ∧
      view.planSecond received m limit = .ok ⟨(distinct (offer.send ++ component)).filter
        fun hash => !received.contains hash, offer.missing⟩ := by
  obtain ⟨offer, offered, against⟩ := view.offer_against pictures limit consistent frontier
  obtain ⟨component, found⟩ := GraphView.component_ok (view.unreached m offer) limit
    (pictures.acyclic consistent)
  refine ⟨offer, component, offered, against, found, ?_⟩
  simp only [GraphView.planSecond, offered, found, Except.map]

section Component

variable {offer : Offer} {component rest : List Hash}
  (found : view.component (view.unreached m offer) limit = .ok component)
include found

omit pictures consistent frontier in
private theorem component_of_unreached_nil (own : view.unreached m offer = []) : component = [] := by
  rw [own] at found
  exact (Except.ok.inj found).symm

omit consistent in
/-- The first hash that no walk reached stands first in the component. -/
private theorem first_of_unreached (room : 0 < limit) (own : view.unreached m offer = hash :: rest) :
    (∃ later, component = hash :: later) ∧ (IsBegin records shown hash ∨ IsEnd records shown hash) ∧
      ¬ (IsBegin records peer hash ∨ IsEnd records peer hash) := by
  obtain ⟨here, unmatched, -⟩ := (view.mem_unreached pictures frontier offer).mp (own ▸ List.mem_cons_self)
  have visible : hash ∈ shown := here.elim And.left And.left
  rw [own] at found
  exact ⟨GraphView.component_first ((pictures.contains hash).mpr visible) room found, here, unmatched⟩

omit consistent in
private theorem unreached_of_component_nil (room : 0 < limit) (none : component = []) :
    view.unreached m offer = [] := by
  cases own : view.unreached m offer with
  | nil => rfl
  | cons addr others =>
    obtain ⟨⟨later, first⟩, -⟩ := first_of_unreached pictures frontier found room own
    rw [none] at first
    cases first

variable (against : offer.Against records shown peer limit) (room : 0 < limit)
include against room

omit consistent in
/-- What is sent begins with the offer, or with a frontier hash that is not of the peer's frontier. -/
private theorem first_beyond (aligned : Aligned records peer shown)
    (sent : offer.send ++ component = hash :: rest) : hash ∉ peer := by
  cases offered : offer.send with
  | cons head others =>
    rw [offered, List.cons_append, List.cons.injEq] at sent
    exact sent.1 ▸ against.first room head others offered
  | nil =>
    rw [offered, List.nil_append] at sent
    cases own : view.unreached m offer with
    | nil =>
      rw [component_of_unreached_nil found own] at sent
      cases sent
    | cons addr others =>
      obtain ⟨⟨later, first⟩, here, unmatched⟩ := first_of_unreached pictures frontier found room own
      obtain ⟨rfl, -⟩ := List.cons.inj (first.symm.trans sent)
      exact fun held => unmatched (here.imp (aligned addr held).1 (aligned addr held).2)

/-- When there is nothing to send or to ask for, either frontier is all of the other. -/
private theorem eq_of_nothing (aligned : Aligned records peer shown) (offered : offer.send = [])
    (own : component = []) (unasked : offer.missing = []) : shown = peer := by
  obtain ⟨uncovered, alignedHere⟩ := against.idle room offered
  have matched : ∀ hash, IsEnd records shown hash → IsBegin records peer hash ∨ IsEnd records peer hash := by
    intro hash here
    by_contra unmatched
    have reached := (view.mem_unreached pictures frontier offer).mpr
      ⟨Or.inr here, unmatched, by rw [uncovered]; exact List.not_mem_nil⟩
    rw [unreached_of_component_nil pictures frontier found room own] at reached
    cases reached
  refine Finset.Subset.antisymm
    (subset_of_frontier consistent (fun last isEnd => (matched last isEnd).elim And.left And.left)
      fun first isBegin member => (alignedHere first member).1 isBegin)
    (subset_of_frontier consistent ?_
      fun first isBegin member => (aligned first member).1 isBegin)
  intro last isEnd
  by_contra absent
  have asked := (against.missing last).mpr ⟨Or.inr isEnd, absent⟩
  rw [unasked] at asked
  cases asked

omit consistent in
/-- Equal frontiers leave nothing to send or to ask for. -/
private theorem nothing_of_eq (same : shown = peer) :
    offer.send = [] ∧ component = [] ∧ offer.missing = [] := by
  subst same
  refine ⟨?_, component_of_unreached_nil found ?_, ?_⟩
  · cases sent : offer.send with
    | nil => rfl
    | cons head others =>
      exact absurd (against.drawn head (sent ▸ List.mem_cons_self)) (against.first room head others sent)
  · apply List.eq_nil_iff_forall_not_mem.mpr
    intro hash own
    obtain ⟨here, unmatched, -⟩ := (view.mem_unreached pictures frontier offer).mp own
    exact unmatched here
  · apply List.eq_nil_iff_forall_not_mem.mpr
    intro hash asked
    obtain ⟨listed, absent⟩ := (against.missing hash).mp asked
    exact absent (listed.elim And.left And.left)

end Component

theorem GraphView.planSecond_spec (received : HashSet) (limit : Nat) :
    ∃ plan, view.planSecond received m limit = .ok plan ∧ plan.Second records shown peer received limit := by
  obtain ⟨offer, component, -, against, found, planned⟩ :=
    view.planSecond_cases pictures consistent frontier received limit
  have drawn := pictures.component_drawn found
  refine ⟨_, planned, ⟨?_, nodup_distinct.filter _, ?_⟩, ⟨against.missing, against.distinct_missing⟩,
    ?_, ?_, ?_⟩
  · intro hash sent
    have listed := (mem_unreceived.mp sent).1
    rw [mem_distinct, List.mem_append] at listed
    exact listed.elim (against.drawn hash) (drawn hash)
  · intro hash sent
    exact (mem_unreceived.mp sent).2
  · intro room nothing aligned hash rest sent
    rw [filter_received_eq nothing] at sent
    obtain ⟨later, split⟩ := first_of_distinct sent
    exact first_beyond pictures frontier found against room aligned split
  · intro room nothing aligned unsent unwanted
    rw [filter_received_eq nothing, distinct_eq_nil, List.append_eq_nil_iff] at unsent
    exact eq_of_nothing pictures consistent frontier found against room aligned unsent.1 unsent.2 unwanted
  · intro room same
    obtain ⟨offered, own, unasked⟩ := nothing_of_eq pictures frontier found against room same
    refine ⟨?_, unasked⟩
    rw [offered, own]
    rfl

theorem Plan.second_of_planned (planned : view.planSecond received m limit = .ok plan) :
    plan.Second records shown peer received limit := by
  obtain ⟨_, made, spec⟩ := GraphView.planSecond_spec pictures consistent frontier received limit
  exact Except.ok.inj (made.symm.trans planned) ▸ spec

/-- What the limit does not cut leaves out no record that shows here and is new to the peer. -/
theorem GraphView.planSecond_whole (whole : shown.card ≤ limit)
    (planned : view.planSecond received m limit = .ok plan) (member : hash ∈ shown) :
    hash ∈ peer ∨ hash ∈ received ∨ hash ∈ plan.send := by
  obtain ⟨offer, component, offered, against, found, made⟩ :=
    view.planSecond_cases pictures consistent frontier received limit
  obtain rfl := Except.ok.inj (made.symm.trans planned)
  have raises := view.offer_raises pictures consistent frontier whole offered
  have goes : hash ∈ peer ∨ hash ∈ offer.send ++ component := by
    by_contra beyond
    obtain ⟨lacking, unsent⟩ := not_or.mp beyond
    rw [List.mem_append, not_or] at unsent
    obtain ⟨last, path, isEnd, absent, left⟩ :=
      raises.exists_end_beyond consistent member lacking unsent.1
    -- an end that the walks reached would be at the peer or on its way
    have own : last ∈ view.unreached m offer := (view.mem_unreached pictures frontier offer).mpr
      ⟨Or.inr isEnd, fun listed => absent (listed.elim And.left And.left),
        fun covered => (against.covered last covered).elim absent left⟩
    exact unsent.2 (pictures.component_whole found consistent whole own isEnd.1 path)
  by_cases old : hash ∈ received
  · exact Or.inr (Or.inl old)
  · exact goes.imp_right fun sent => Or.inr (mem_unreceived.mpr ⟨mem_distinct.mpr sent, old⟩)

end Second

/-! ## The answer to phase three -/

namespace Plan

/-- A plan for an answer to phase three. -/
structure Third (shown : Finset Hash) (received : HashSet) (limit : Nat) (asked : List Hash) (plan : Plan) :
    Prop where
  sends : plan.Sends shown received
  asks : plan.wanted = []
  first : 0 < limit → (∀ hash, hash ∉ received) → ∀ addr rest, asked = addr :: rest → addr ∈ shown →
    ∃ later, plan.send = addr :: later
  idle : asked = [] → plan.send = []

end Plan

section Third

variable (pictures : view.Pictures records shown) (consistent : Consistent records)
include pictures consistent

theorem GraphView.planThird_spec (received : HashSet) (limit : Nat) :
    ∃ plan, view.planThird received m limit = .ok plan ∧ plan.Third shown received limit m.wanted := by
  obtain ⟨component, found⟩ := GraphView.component_ok
    (m.wanted.filter fun hash => !received.contains hash) limit
    (pictures.acyclic consistent)
  have drawn := pictures.component_drawn found
  refine ⟨_, map_eq_ok.mpr ⟨component, found, rfl⟩,
    ⟨fun hash sent => drawn hash (mem_unreceived.mp sent).1,
      (GraphView.component_collects found).nodup.filter _, fun hash sent => (mem_unreceived.mp sent).2⟩,
    rfl, ?_, ?_⟩
  · intro room nothing addr rest asked visible
    rw [filter_received_eq nothing, asked] at found
    obtain ⟨later, first⟩ := GraphView.component_first ((pictures.contains addr).mpr visible) room found
    exact ⟨later, by rw [filter_received_eq nothing, first]⟩
  · intro unasked
    rw [unasked] at found
    obtain rfl : component = [] := (Except.ok.inj found).symm
    rfl

theorem Plan.third_of_planned (planned : view.planThird received m limit = .ok plan) :
    plan.Third shown received limit m.wanted := by
  obtain ⟨_, made, spec⟩ := GraphView.planThird_spec pictures consistent received limit
  exact Except.ok.inj (made.symm.trans planned) ▸ spec

/-- What the limit does not cut includes all that leads to a hash asked for. -/
theorem GraphView.planThird_whole (whole : shown.card ≤ limit)
    (planned : view.planThird received m limit = .ok plan) {addr : Hash} (asked : addr ∈ m.wanted)
    (new : addr ∉ received) (visible : addr ∈ shown) (path : Leads records shown hash addr)
    (unsent : hash ∉ received) : hash ∈ plan.send := by
  obtain ⟨component, found, rfl⟩ := map_eq_ok.mp planned
  exact mem_unreceived.mpr ⟨pictures.component_whole found consistent whole
    (mem_unreceived.mpr ⟨asked, new⟩) visible path, unsent⟩

end Third

end HashLog
