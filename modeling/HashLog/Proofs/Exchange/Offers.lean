import HashLog.Exchange.Offer
import HashLog.Proofs.Graph.Pictures
import HashLog.Proofs.Store.TableCommits
/-!
What a side offers against the other's frontier. Whatever the limit, an offer draws on what shows
here, reaches nothing that the peer neither holds nor is sent, and names the frontier hashes that are
not here (`Against`). If it sends anything, the first hash is new to the peer. An offer that the limit
does not cut sends along predecessor links all that the peer lacks (`offer_raises`).
-/
namespace HashLog

variable {hash : Hash} {hashes : List Hash}

private theorem mem_distinctFrom {seen : HashSet} :
    hash ∈ HashSet.distinctFrom seen hashes ↔ hash ∈ hashes ∧ hash ∉ seen := by
  induction hashes generalizing seen with
  | nil => simp [HashSet.distinctFrom]
  | cons first rest ih =>
    unfold HashSet.distinctFrom
    by_cases old : first ∈ seen
    · rw [if_pos (by simpa using old), ih, List.mem_cons]
      exact ⟨fun found => ⟨Or.inr found.1, found.2⟩,
        fun found => ⟨found.1.resolve_left fun same => found.2 (same ▸ old), found.2⟩⟩
    · rw [if_neg (by simpa using old), List.mem_cons, ih, Std.TreeSet.mem_insert,
        Std.LawfulEqCmp.compare_eq_iff_eq, List.mem_cons]
      grind

@[simp] theorem mem_distinct : hash ∈ distinct hashes ↔ hash ∈ hashes := by
  simp [distinct, mem_distinctFrom]

private theorem nodup_distinctFrom {seen : HashSet} : (HashSet.distinctFrom seen hashes).Nodup := by
  induction hashes generalizing seen with
  | nil => exact List.nodup_nil
  | cons first rest ih =>
    unfold HashSet.distinctFrom
    split
    · exact ih
    · exact List.nodup_cons.mpr ⟨fun member => (mem_distinctFrom.mp member).2 (by simp), ih⟩

theorem nodup_distinct : (distinct hashes).Nodup := nodup_distinctFrom

@[simp] theorem distinct_eq_nil : distinct hashes = [] ↔ hashes = [] := by
  simp only [List.eq_nil_iff_forall_not_mem, mem_distinct]

/-- What stands first stays first. -/
theorem first_of_distinct {rest : List Hash} (split : distinct hashes = hash :: rest) :
    ∃ later, hashes = hash :: later := by
  cases hashes with
  | nil => cases split
  | cons head others =>
    simp only [distinct, HashSet.distinctFrom, Std.TreeSet.contains_emptyc, Bool.false_eq_true, if_false,
      List.cons.injEq] at split
    exact ⟨others, by rw [split.1]⟩

private theorem beyond_iff {terminals : HashSet} {start : Hash} :
    (hash != start && !terminals.contains hash) = true ↔ ¬ (hash = start ∨ hash ∈ terminals) := by
  rw [Bool.and_eq_true, bne_iff_ne, Bool.not_eq_true', Bool.eq_false_iff, ne_eq, ne_eq,
    Std.TreeSet.contains_iff_mem, not_or]

/-- The lists are the begins and the ends of what the peer holds. -/
structure FrontierOf (records : Set Record) (peer : Finset Hash) (begins ends : List Hash) : Prop where
  begins : ∀ hash, hash ∈ begins ↔ IsBegin records peer hash
  ends : ∀ hash, hash ∈ ends ↔ IsEnd records peer hash

/-- A hash of the peer's frontier that shows here is of the frontier here too. -/
def Aligned (records : Set Record) (shown peer : Finset Hash) : Prop :=
  ∀ hash ∈ shown, (IsBegin records peer hash → IsBegin records shown hash) ∧
    (IsEnd records peer hash → IsEnd records shown hash)

namespace Offer

/-- What an offer to a peer promises, whatever the limit. -/
structure Against (records : Set Record) (shown peer : Finset Hash) (limit : Nat) (offer : Offer) :
    Prop where
  drawn : ∀ hash ∈ offer.send, hash ∈ shown
  distinct_send : offer.send.Nodup
  first : 0 < limit → ∀ hash rest, offer.send = hash :: rest → hash ∉ peer
  covered : ∀ hash ∈ offer.covered, hash ∈ peer ∨ hash ∈ offer.send
  missing : ∀ hash, hash ∈ offer.missing ↔
    (IsBegin records peer hash ∨ IsEnd records peer hash) ∧ hash ∉ shown
  distinct_missing : offer.missing.Nodup
  idle : 0 < limit → offer.send = [] → offer.covered = [] ∧ Aligned records shown peer

/-- The part of an offer that starts at one frontier hash of the peer. -/
private structure Part (records : Set Record) (shown peer : Finset Hash) (limit : Nat) (start : Hash)
    (part : Offer) : Prop where
  drawn : ∀ hash ∈ part.send, hash ∈ shown
  covered : ∀ hash ∈ part.covered, hash ∈ peer ∨ hash ∈ part.send
  missing : ∀ hash, hash ∈ part.missing ↔ hash = start ∧ start ∉ shown
  first : 0 < limit → start ∈ shown → ∃ hash rest, part.send = hash :: rest ∧ hash ∉ peer
  absent : start ∉ shown → part.send = [] ∧ part.covered = []

variable {records : Set Record} {shown peer : Finset Hash} {offers : List Offer} {start : Hash}
  {limit : Nat}

theorem join_eq : join offers =
    ⟨offers.flatMap Offer.send, offers.flatMap Offer.covered, offers.flatMap Offer.missing⟩ := by
  induction offers with
  | nil => rfl
  | cons offer rest ih =>
    have unfolded : join (offer :: rest) = offer.append (join rest) := rfl
    rw [unfolded, ih]
    rfl

private theorem part_absent (missing : start ∉ shown) :
    Part records shown peer limit start (.absent start) := by
  refine ⟨by simp [absent], by simp [absent], ?_, fun _ member => absurd member missing,
    fun _ => ⟨rfl, rfl⟩⟩
  intro hash
  simp [absent, missing]

/-- A part that sends nothing starts at a hash that does not show. -/
private theorem Part.hidden {part : Offer} (spec : Part records shown peer limit start part)
    (room : 0 < limit) (none : part.send = []) : start ∉ shown := by
  intro visible
  obtain ⟨head, others, sent, -⟩ := spec.first room visible
  rw [none] at sent
  cases sent

end Offer

namespace GraphView

variable {view : GraphView} {records : Set Record} {shown peer : Finset Hash} {begins ends : List Hash}
  {limit : Nat} {start : Hash} {part offer : Offer}

/-- An offer is made of one part for each hash of the frontier that is none of the frontier here. -/
theorem parts_of_offer (ran : view.offer begins ends limit = .ok offer) : ∃ parts : List Offer,
    offer = ⟨distinct (parts.flatMap Offer.send), parts.flatMap Offer.covered,
      distinct (parts.flatMap Offer.missing)⟩ ∧
    ∀ part, part ∈ parts ↔
      (∃ start ∈ begins, view.frontier.isBegin start = false ∧
        view.offerAhead (HashSet.ofList ends) limit start = .ok part) ∨
      ∃ start ∈ ends, view.frontier.isEnd start = false ∧
        part = view.offerAfter (HashSet.ofList begins) limit start := by
  obtain ⟨ahead, walked, rfl⟩ := map_eq_ok.mp ran
  refine ⟨_, by rw [Offer.join_eq], fun part => ?_⟩
  rw [List.mem_append, mem_mapM_iff walked, List.mem_map]
  simp only [List.mem_filter, Bool.not_eq_true', and_assoc, eq_comm (a := part)]

private theorem mem_terminals (start : Hash) (frontier : FrontierOf records peer begins ends) :
    ∀ hash ∈ (HashSet.ofList ends).erase start, hash ∈ peer := fun hash member =>
  ((frontier.ends hash).mp (by simpa using (Std.TreeSet.mem_erase.mp member).2)).1

variable (pictures : view.Pictures records shown)
include pictures

private theorem offerAhead_part (consistent : Consistent records)
    (frontier : FrontierOf records peer begins ends)
    (unmatched : IsBegin records peer start ∧ ¬ IsBegin records shown start) :
    ∃ part, view.offerAhead (HashSet.ofList ends) limit start = .ok part ∧
      Offer.Part records shown peer limit start part := by
  by_cases visible : start ∈ shown
  swap
  · refine ⟨.absent start, ?_, Offer.part_absent visible⟩
    simp [offerAhead, show ¬ view.contains start = true by rwa [pictures.contains]]
  obtain ⟨next, parent⟩ := exists_parent visible unmatched.2
  have precedes := (pictures.precedes _ _).mpr parent
  have beyond : next ∉ peer := unmatched.1.2 next parent.2.2
  have terminals := mem_terminals start frontier
  obtain ⟨walk, walked⟩ := searchAhead_ok start ((HashSet.ofList ends).erase start) limit
    (pictures.acyclic consistent)
  have outside : start ∉ (HashSet.ofList ends).erase start := by simp
  have older := searchAhead_ahead outside walked
  rw [offerAhead, if_pos ((pictures.contains start).mpr visible)]
  refine ⟨_, map_eq_ok.mpr ⟨walk, walked, rfl⟩, ?_, ?_, ?_, ?_, fun missing => absurd visible missing⟩
  · intro hash sent
    have found : hash ∈ walk.visited ∨ hash ∈ walk.localEnds :=
      (List.mem_append.mp sent).imp_right fun reached => (List.mem_filter.mp reached).1
    exact mem_of_leads (pictures.leads_of_precedes (older.reached hash found)) visible
  · intro hash covered
    rcases List.mem_append.mp covered with passed | ended
    · exact Or.inr (List.mem_append_left _ passed)
    · by_cases held : hash = start ∨ hash ∈ (HashSet.ofList ends).erase start
      · exact Or.inl (held.elim (fun same => same ▸ unmatched.1.1) (terminals hash))
      · exact Or.inr (List.mem_append_right _ (List.mem_filter.mpr ⟨ended, beyond_iff.mpr held⟩))
  · simp [visible]
  · intro room _
    have differs : next ≠ start := fun same => beyond (same ▸ unmatched.1.1)
    have notTerminal : next ∉ (HashSet.ofList ends).erase start := fun member =>
      beyond (terminals next member)
    rcases searchAhead_first outside walked precedes notTerminal room with ⟨rest, passed⟩ | ⟨none, ended⟩
    · exact ⟨next, _, by simp only [passed]; rfl, beyond⟩
    · have kept := beyond_iff.mpr (not_or.mpr ⟨differs, notTerminal⟩)
      refine ⟨next, [], ?_, beyond⟩
      simp only [none, ended, List.nil_append]
      exact List.filter_cons_of_pos kept

private theorem offerAfter_part (frontier : FrontierOf records peer begins ends)
    (unmatched : IsEnd records peer start ∧ ¬ IsEnd records shown start) :
    Offer.Part records shown peer limit start (view.offerAfter (HashSet.ofList begins) limit start) := by
  by_cases visible : start ∈ shown
  swap
  · rw [offerAfter, if_neg (by rwa [pictures.contains])]
    exact Offer.part_absent visible
  rw [offerAfter, if_pos ((pictures.contains start).mpr visible)]
  have newer : view.Sweep ((HashSet.ofList begins).erase start) limit _ [start] _ :=
    searchAfter_sweeps (by simp)
  refine ⟨?_, ?_, by simp [visible], ?_, fun missing => absurd visible missing⟩
  · intro hash passed
    exact (pictures.leads_of_follows visible (newer.descends passed)).2
  · intro hash covered
    rcases List.mem_append.mp covered with passed | ended
    · exact Or.inr passed
    · refine (newer.ends_among ended).imp_left ?_
      rintro rfl
      exact unmatched.1.1
  · intro room _
    obtain ⟨below, step⟩ := exists_child visible unmatched.2
    obtain ⟨child, rest, children⟩ : ∃ child rest, view.nextHashes start = child :: rest :=
      List.exists_cons_of_ne_nil
        (List.ne_nil_of_mem ((pictures.follows start below visible).mpr step))
    have parent := (pictures.follows start child visible).mp (by simp [Follows, children])
    have beyond : child ∉ peer := fun member => unmatched.1.2 child member parent.2.2
    have notTerminal : child ∉ (HashSet.ofList begins).erase start := fun member =>
      beyond ((frontier.begins child).mp (by simpa using (Std.TreeSet.mem_erase.mp member).2)).1
    obtain ⟨later, passed⟩ := searchAfter_first (by simp) children notTerminal
      (fun same => beyond (same ▸ unmatched.1.1)) room
    exact ⟨child, later, passed, beyond⟩

/-- An offer is put together from one part for each frontier hash of the peer that is none here. -/
private theorem offer_parts (limit : Nat) (consistent : Consistent records)
    (frontier : FrontierOf records peer begins ends) :
    ∃ parts : List Offer, view.offer begins ends limit = .ok ⟨distinct (parts.flatMap Offer.send),
        parts.flatMap Offer.covered, distinct (parts.flatMap Offer.missing)⟩ ∧
      (∀ part ∈ parts, ∃ start, (IsBegin records peer start ∨ IsEnd records peer start) ∧
        Offer.Part records shown peer limit start part ∧
          (view.offerAhead (HashSet.ofList ends) limit start = .ok part ∨
            part = view.offerAfter (HashSet.ofList begins) limit start)) ∧
      (∀ start, IsBegin records peer start ∧ ¬ IsBegin records shown start → ∃ part ∈ parts,
        Offer.Part records shown peer limit start part ∧
          view.offerAhead (HashSet.ofList ends) limit start = .ok part) ∧
      ∀ start, IsEnd records peer start ∧ ¬ IsEnd records shown start → ∃ part ∈ parts,
        Offer.Part records shown peer limit start part := by
  have unmatchedBegin : ∀ start, start ∈ begins ∧ view.frontier.isBegin start = false ↔
      IsBegin records peer start ∧ ¬ IsBegin records shown start := fun start => by
    rw [frontier.begins, ← pictures.isBegin_iff, Bool.not_eq_true]
  have unmatchedEnd : ∀ start, start ∈ ends ∧ view.frontier.isEnd start = false ↔
      IsEnd records peer start ∧ ¬ IsEnd records shown start := fun start => by
    rw [frontier.ends, ← pictures.isEnd_iff, Bool.not_eq_true]
  have walks : ∀ start ∈ begins.filter fun hash => !view.frontier.isBegin hash, ∃ part,
      view.offerAhead (HashSet.ofList ends) limit start = .ok part := fun start member => by
    have unmatched := (unmatchedBegin start).mp (by simpa using List.mem_filter.mp member)
    exact (offerAhead_part pictures consistent frontier unmatched).imp fun _ found => found.1
  obtain ⟨ahead, walked⟩ := exists_mapM_ok walks
  obtain ⟨offer, ran⟩ : ∃ offer, view.offer begins ends limit = .ok offer :=
    ⟨_, map_eq_ok.mpr ⟨ahead, walked, rfl⟩⟩
  obtain ⟨parts, rfl, each⟩ := parts_of_offer ran
  refine ⟨parts, ran, ?_, ?_, ?_⟩
  · intro part member
    rcases (each part).mp member with ⟨start, listed, outer, walked⟩ | ⟨start, listed, outer, rfl⟩
    · have unmatched := (unmatchedBegin start).mp ⟨listed, outer⟩
      obtain ⟨_, made, spec⟩ := offerAhead_part pictures consistent frontier unmatched
      obtain rfl := Except.ok.inj (made.symm.trans walked)
      exact ⟨start, Or.inl unmatched.1, spec, Or.inl walked⟩
    · have unmatched := (unmatchedEnd start).mp ⟨listed, outer⟩
      exact ⟨start, Or.inr unmatched.1, offerAfter_part pictures frontier unmatched, Or.inr rfl⟩
  · intro start unmatched
    obtain ⟨listed, outer⟩ := (unmatchedBegin start).mpr unmatched
    obtain ⟨part, walked, spec⟩ := offerAhead_part pictures consistent frontier unmatched
    exact ⟨part, (each part).mpr (Or.inl ⟨start, listed, outer, walked⟩), spec, walked⟩
  · intro start unmatched
    obtain ⟨listed, outer⟩ := (unmatchedEnd start).mpr unmatched
    exact ⟨_, (each _).mpr (Or.inr ⟨start, listed, outer, rfl⟩),
      offerAfter_part pictures frontier unmatched⟩

omit pictures in
/-- Parts before the first that sends something contribute nothing. -/
private theorem first_of_parts {parts : List Offer} {hash : Hash} {rest : List Hash}
    (specs : ∀ part ∈ parts, ∃ start, Offer.Part records shown peer limit start part) (room : 0 < limit)
    (joined : parts.flatMap Offer.send = hash :: rest) : hash ∉ peer := by
  induction parts with
  | nil => cases joined
  | cons part parts ih =>
    obtain ⟨start, spec⟩ := specs part List.mem_cons_self
    by_cases visible : start ∈ shown
    · obtain ⟨head, others, sent, beyond⟩ := spec.first room visible
      rw [List.flatMap_cons, sent, List.cons_append, List.cons.injEq] at joined
      exact joined.1 ▸ beyond
    · rw [List.flatMap_cons, (spec.absent visible).1, List.nil_append] at joined
      exact ih (fun part member => specs part (List.mem_cons_of_mem _ member)) joined

/-- An offer against the frontier of a peer, whatever the limit. -/
theorem offer_against (limit : Nat) (consistent : Consistent records)
    (frontier : FrontierOf records peer begins ends) :
    ∃ offer, view.offer begins ends limit = .ok offer ∧ offer.Against records shown peer limit := by
  obtain ⟨parts, ran, each, fromBegin, fromEnd⟩ := offer_parts pictures limit consistent frontier
  refine ⟨_, ran, ?_⟩
  have unsent : distinct (parts.flatMap Offer.send) = [] → ∀ part ∈ parts, part.send = [] :=
    fun none => List.flatMap_eq_nil_iff.mp (distinct_eq_nil.mp none)
  refine ⟨?_, nodup_distinct, ?_, ?_, ?_, nodup_distinct,
    fun room none => ⟨?_, fun hash visible => ⟨?_, ?_⟩⟩⟩
  · intro hash sent
    obtain ⟨part, member, sent⟩ := List.mem_flatMap.mp (mem_distinct.mp sent)
    obtain ⟨start, -, spec, -⟩ := each part member
    exact spec.drawn hash sent
  · intro room hash rest sent
    obtain ⟨later, joined⟩ := first_of_distinct sent
    exact first_of_parts (fun part member => (each part member).imp fun _ found => found.2.1) room joined
  · intro hash covered
    obtain ⟨part, member, covered⟩ := List.mem_flatMap.mp covered
    obtain ⟨start, -, spec, -⟩ := each part member
    exact (spec.covered hash covered).imp_right fun sent =>
      mem_distinct.mpr (List.mem_flatMap.mpr ⟨part, member, sent⟩)
  · intro hash
    rw [mem_distinct, List.mem_flatMap]
    constructor
    · rintro ⟨part, member, missing⟩
      obtain ⟨start, listed, spec, -⟩ := each part member
      obtain ⟨rfl, hidden⟩ := (spec.missing hash).mp missing
      exact ⟨listed, hidden⟩
    · rintro ⟨isBegin | isEnd, hidden⟩
      · obtain ⟨part, member, spec, -⟩ := fromBegin hash ⟨isBegin, fun here => hidden here.1⟩
        exact ⟨part, member, (spec.missing hash).mpr ⟨rfl, hidden⟩⟩
      · obtain ⟨part, member, spec⟩ := fromEnd hash ⟨isEnd, fun here => hidden here.1⟩
        exact ⟨part, member, (spec.missing hash).mpr ⟨rfl, hidden⟩⟩
  · rw [List.flatMap_eq_nil_iff]
    intro part member
    obtain ⟨start, -, spec, -⟩ := each part member
    exact (spec.absent (spec.hidden room (unsent none part member))).2
  · intro isBegin
    by_contra unmatched
    obtain ⟨part, member, spec, -⟩ := fromBegin hash ⟨isBegin, unmatched⟩
    exact spec.hidden room (unsent none part member) visible
  · intro isEnd
    by_contra unmatched
    obtain ⟨part, member, spec⟩ := fromEnd hash ⟨isEnd, unmatched⟩
    exact spec.hidden room (unsent none part member) visible

/-- What a walk from a begin of the peer sends is closed under predecessors up to what it holds. -/
private theorem offerAhead_raises (frontier : FrontierOf records peer begins ends)
    (visible : start ∈ shown) (held : start ∈ peer) (whole : shown.card ≤ limit)
    (ran : view.offerAhead (HashSet.ofList ends) limit start = .ok part) {child prev : Hash}
    (below : child = start ∨ child ∈ part.send) (parent : Parent records shown prev child) :
    prev ∈ peer ∨ prev ∈ part.send := by
  have precedes := (pictures.precedes _ _).mpr parent
  have terminals := mem_terminals start frontier
  rw [offerAhead, if_pos ((pictures.contains start).mpr visible)] at ran
  obtain ⟨walk, walked, rfl⟩ := map_eq_ok.mp ran
  have outside : start ∉ (HashSet.ofList ends).erase start := by simp
  have older := searchAhead_ahead outside walked
  have uncut := searchAhead_whole outside walked
    (fun _ _ precedes => ((pictures.precedes _ _).mp precedes).1) whole
  have passed : child = start ∨ child ∈ walk.visited := by
    rcases below with same | sent
    · exact Or.inl same
    · refine Or.inr ((List.mem_append.mp sent).resolve_right ?_)
      intro reached
      have oldest := older.oldest child (List.mem_filter.mp reached).1
      simp [Precedes, oldest] at precedes
  rcases older.closed uncut child passed prev precedes with visited | ended | terminal
  · exact Or.inr (List.mem_append_left _ visited)
  · by_cases known : prev = start ∨ prev ∈ (HashSet.ofList ends).erase start
    · exact Or.inl (known.elim (fun same => same ▸ held) (terminals prev))
    · exact Or.inr (List.mem_append_right _ (List.mem_filter.mpr ⟨ended, beyond_iff.mpr known⟩))
  · exact Or.inl (terminals prev terminal)

private theorem offerAfter_raises (consistent : Consistent records) (visible : start ∈ shown)
    (held : start ∈ peer) {child prev : Hash}
    (sent : child ∈ (view.offerAfter (HashSet.ofList begins) limit start).send)
    (parent : Parent records shown prev child) :
    prev ∈ peer ∨ prev ∈ (view.offerAfter (HashSet.ofList begins) limit start).send := by
  rw [offerAfter, if_pos ((pictures.contains start).mpr visible)] at sent ⊢
  have newer : view.Sweep ((HashSet.ofList begins).erase start) limit _ [start] _ :=
    searchAfter_sweeps (by simp)
  obtain ⟨other, on, follows⟩ := newer.exists_follows sent
  have shows : other ∈ shown := by
    rcases on with same | visited
    · exact same ▸ visible
    · exact (pictures.leads_of_follows visible (newer.descends visited)).2
  have names := ((pictures.follows other child shows).mp follows).2.2
  obtain rfl := consistent.names_unique parent.2.2 names
  refine on.imp_left ?_
  rintro rfl
  exact held

/-- An offer that the limit does not cut sends what lies above all that the peer holds or is sent. -/
theorem offer_raises (consistent : Consistent records)
    (frontier : FrontierOf records peer begins ends) (whole : shown.card ≤ limit)
    (ran : view.offer begins ends limit = .ok offer) : Raises records shown peer offer.send := by
  obtain ⟨parts, composed, each, fromBegin, -⟩ := offer_parts pictures limit consistent frontier
  obtain rfl := Except.ok.inj (composed.symm.trans ran)
  have sent_of : ∀ part ∈ parts, ∀ hash, hash ∈ peer ∨ hash ∈ part.send →
      hash ∈ peer ∨ hash ∈ distinct (parts.flatMap Offer.send) := fun part member hash found =>
    found.imp_right fun sent => mem_distinct.mpr (List.mem_flatMap.mpr ⟨part, member, sent⟩)
  rintro child prev (held | sent) parent
  · by_contra beyond
    have isBegin : IsBegin records peer child := ⟨held, fun other names =>
      consistent.names_unique parent.2.2 names ▸ (not_or.mp beyond).1⟩
    obtain ⟨part, member, -, walked⟩ := fromBegin child
      ⟨isBegin, fun here => here.2 prev parent.2.2 parent.1⟩
    exact beyond (sent_of part member prev
      (offerAhead_raises pictures frontier parent.2.1 held whole walked (Or.inl rfl) parent))
  · obtain ⟨part, member, sent⟩ := List.mem_flatMap.mp (mem_distinct.mp sent)
    obtain ⟨start, listed, spec, walked | rfl⟩ := each part member
    all_goals
      have visible : start ∈ shown := by
        by_contra hidden
        simp [(spec.absent hidden).1] at sent
      have held : start ∈ peer := listed.elim And.left And.left
    · exact sent_of part member prev
        (offerAhead_raises pictures frontier visible held whole walked (Or.inr sent) parent)
    · exact sent_of _ member prev
        (offerAfter_raises pictures consistent visible held sent parent)

end GraphView

end HashLog
