import HashLog.Proofs.Exchange.Gaps
import HashLog.Proofs.Exchange.Union
/-!
What an exchange ships on logs without forks. Phase two brings what the initiator lacks of the runs in
which it holds something, and phase three exactly what the receiver lacks. A run of which the
initiator holds nothing comes in phase four together with all of the receiver's records that the log
of both joins to it, so this is the only phase that ships what the other side already holds
(`Exchange.Ships`), and `exchange_ships_gaps` says how many records that makes.
-/
namespace HashLog

variable {records : Set Record} {shown peer near far : Finset Hash} {hash other : Hash}

/-! ## Runs out of reach -/

/-- A record of the receiver's in a run of which the initiator holds nothing. -/
def Detached (records : Set Record) (near far : Finset Hash) (hash : Hash) : Prop :=
  hash ∈ far ∧ ∀ held ∈ near, ¬ Joined records far hash held

theorem Detached.not_mem (detached : Detached records near far hash) : hash ∉ near := fun held =>
  detached.2 hash held (.refl hash)

theorem Detached.joined (detached : Detached records near far hash) (linear : Linear records)
    (joined : Joined records far other hash) : Detached records near far other :=
  ⟨joined.mem detached.1, fun held member path =>
    detached.2 held member (linear.joined_trans joined.symm path)⟩

/-- If phase two ships what the initiator lacks within its reach, what is left out is detached. -/
theorem detached_iff {two : List Hash} (second : ∀ hash, hash ∈ two ↔
      hash ∈ far ∧ hash ∉ near ∧ ∃ held ∈ near, Joined records far hash held) (member : hash ∈ far) :
    Detached records near far hash ↔ ¬ (hash ∈ near ∨ hash ∈ two) := by
  rw [second, not_or]
  constructor
  · intro detached
    refine ⟨detached.not_mem, ?_⟩
    rintro ⟨-, -, held, known, joined⟩
    exact detached.2 held known joined
  · rintro ⟨lacking, unsent⟩
    exact ⟨member, fun held known joined => unsent ⟨member, lacking, held, known, joined⟩⟩

/-! ## Plans -/

namespace GraphView

variable {view : GraphView} {m : Message} {received : HashSet} {limit : Nat} {plan : Plan}
  (pictures : view.Pictures records shown) (room : shown.card ≤ limit)
include pictures room

theorem mem_planFirst_iff (linear : Linear records) (frontier : FrontierOf records peer m.begins m.ends)
    (planned : view.planFirst m limit = .ok plan) : hash ∈ plan.send ↔
      hash ∈ shown ∧ hash ∉ peer ∧ ∃ held ∈ peer, Joined records shown hash held := by
  obtain ⟨offer, offered, rfl⟩ := map_eq_ok.mp planned
  exact view.mem_offer_send pictures room linear frontier offered

/-- If what shows here of each run of the peer's is the whole run, the answer to phase two sends nothing
that the peer holds. -/
theorem planSecond_beyond (linear : Linear records) (frontier : FrontierOf records peer m.begins m.ends)
    (closed : ∀ hash ∈ shown, hash ∈ peer → ∀ other, Joined records peer hash other → other ∈ shown)
    (planned : view.planSecond received m limit = .ok plan) : ∀ hash ∈ plan.send, hash ∉ peer := by
  obtain ⟨offer, component, offered, -, found, made⟩ :=
    view.planSecond_cases pictures linear.toConsistent frontier received limit
  obtain rfl := Except.ok.inj (made.symm.trans planned)
  have gaps : ∀ hash, hash ∈ offer.send ↔
      hash ∈ shown ∧ hash ∉ peer ∧ ∃ held ∈ peer, Joined records shown hash held :=
    fun _ => view.mem_offer_send pictures room linear frontier offered
  intro hash sent held
  rcases List.mem_append.mp (mem_distinct.mp (mem_unreceived.mp sent).1) with ahead | item
  · exact ((gaps hash).mp ahead).2.1 held
  obtain ⟨addr, own, visible, joined⟩ := pictures.component_joined found item
  obtain ⟨here, unmatched, uncovered⟩ := (view.mem_unreached pictures frontier offer).mp own
  by_cases there : addr ∈ peer
  · -- a frontier hash that both hold, and that is inner to a run of the peer, would not be one here
    obtain ⟨inner, outer⟩ := not_or.mp unmatched
    obtain ⟨prev, above⟩ := exists_parent there inner
    obtain ⟨child, below⟩ := exists_child there outer
    rcases here with isBegin | isEnd
    · exact isBegin.2 prev above.2.2 (closed addr visible there prev (Or.inr (.single above)))
    · exact isEnd.2 child (closed addr visible there child (Or.inl (.single below))) below.2.2
  · have sent := (gaps addr).mpr ⟨visible, there, hash, held, Joined.symm joined⟩
    exact uncovered (covered_of_sent offered sent)

/-- The answer to phase three sends all that is joined to a hash asked for. -/
theorem mem_planThird_iff (consistent : Consistent records)
    (planned : view.planThird received m limit = .ok plan) : hash ∈ plan.send ↔
      hash ∉ received ∧ ∃ addr ∈ m.wanted, addr ∉ received ∧ addr ∈ shown ∧
        Joined records shown hash addr := by
  obtain ⟨component, found, rfl⟩ := map_eq_ok.mp planned
  rw [mem_unreceived, pictures.mem_component_iff consistent room found, and_comm]
  simp only [mem_unreceived, and_assoc]

end GraphView

/-! ## What each phase ships -/

namespace Exchange

/-- What the four messages ship between an initiator that holds `near` and a receiver that holds `far`,
each record once in a message. -/
structure Ships (x : Exchange) (records : Set Record) (near far : Finset Hash) : Prop where
  first : x.first.records = []
  second : ∀ hash, hash ∈ hashesIn x.second.records ↔
    hash ∈ far ∧ hash ∉ near ∧ ∃ held ∈ near, Joined records far hash held
  third : ∀ hash, hash ∈ hashesIn x.third.records ↔ hash ∈ near ∧ hash ∉ far
  fourth : ∀ hash, hash ∈ hashesIn x.fourth.records ↔
    hash ∈ far ∧ ∃ lost, Detached records near far lost ∧ Joined records (near ∪ far) hash lost
  second_nodup : (hashesIn x.second.records).Nodup
  third_nodup : (hashesIn x.third.records).Nodup
  fourth_nodup : (hashesIn x.fourth.records).Nodup

section Whole

variable {x : Exchange} {near far : List Record} (whole : x.Whole records near far)
  (linear : Linear records)
include whole linear

theorem Whole.second_iff : hash ∈ hashesIn x.second.records ↔ hash ∈ hashSet far ∧ hash ∉ hashSet near ∧
    ∃ held ∈ hashSet near, Joined records (hashSet far) hash held := by
  obtain ⟨view, plan, pictures, ⟨limit, large, planned⟩, sent, -⟩ := whole.second
  rw [sent, view.mem_planFirst_iff pictures large linear whole.first planned]

/-- Of the receiver's records, the initiator then shows all that are not out of its reach. -/
theorem Whole.reached_iff (member : hash ∈ hashSet far) :
    hash ∈ hashSet (addRecords near x.second.records) ↔
      ¬ Detached records (hashSet near) (hashSet far) hash := by
  rw [detached_iff (fun hash => whole.second_iff linear) member, not_not, mem_hashSet,
    hashesIn_addRecords, mem_hashSet]

theorem Whole.third_iff : hash ∈ hashesIn x.third.records ↔ hash ∈ hashSet near ∧ hash ∉ hashSet far := by
  have conveyed := whole.conveyed linear.toConsistent
  obtain ⟨view, plan, pictures, ⟨limit, large, planned⟩, sent, -⟩ := whole.third
  have closed : ∀ hash ∈ hashSet (addRecords near x.second.records), hash ∈ hashSet far → ∀ other,
      Joined records (hashSet far) hash other → other ∈ hashSet (addRecords near x.second.records) := by
    intro hash visible member other joined
    refine (whole.reached_iff linear (joined.symm.mem member)).mpr fun detached => ?_
    exact (whole.reached_iff linear member).mp visible (detached.joined linear joined)
  have back : hash ∉ hashSet far → hash ∉ hashesIn x.second.records := fun beyond back =>
    beyond ((whole.second_iff linear).mp back).1
  constructor
  · intro told
    have beyond := view.planSecond_beyond pictures large linear whole.frontier closed planned hash
      (sent ▸ told)
    exact ⟨mem_hashSet.mpr ((conveyed.third hash told).resolve_right (back beyond)), beyond⟩
  · rintro ⟨member, beyond⟩
    have goes := (conveyed.whole hash (mem_hashSet.mp member)).resolve_left (mem_hashSet.not.mp beyond)
    exact goes.resolve_left (back beyond)

/-- After phase three the receiver shows all that either side held. -/
theorem Whole.both_shown :
    hashSet (addRecords far x.third.records) = hashSet near ∪ hashSet far := by
  ext hash
  rw [mem_hashSet, hashesIn_addRecords, whole.third_iff linear, Finset.mem_union, mem_hashSet, mem_hashSet]
  tauto

/-- The initiator asks for the frontier of what is out of its reach. -/
theorem Whole.asked_iff : hash ∈ x.third.wanted ↔
    (IsBegin records (hashSet far) hash ∨ IsEnd records (hashSet far) hash) ∧
      Detached records (hashSet near) (hashSet far) hash := by
  obtain ⟨view, plan, pictures, ⟨limit, large, planned⟩, -, asked⟩ := whole.third
  have spec := Plan.second_of_planned pictures linear.toConsistent whole.frontier planned
  rw [asked, spec.asks.wanted]
  refine and_congr_right fun listed => ?_
  rw [whole.reached_iff linear (listed.elim And.left And.left), not_not]

theorem Whole.fourth_iff : hash ∈ hashesIn x.fourth.records ↔ hash ∈ hashSet far ∧
    ∃ lost, Detached records (hashSet near) (hashSet far) lost ∧
      Joined records (hashSet near ∪ hashSet far) hash lost := by
  obtain ⟨view, plan, pictures, ⟨limit, large, planned⟩, sent, -⟩ := whole.fourth
  rw [sent, view.mem_planThird_iff pictures large linear.toConsistent planned, Engine.mem_hashesOf,
    whole.both_shown linear, whole.third_iff linear]
  constructor
  · rintro ⟨new, addr, asked, -, visible, joined⟩
    refine ⟨?_, addr, ((whole.asked_iff linear).mp asked).2, joined⟩
    by_contra beyond
    exact new ⟨(Finset.mem_union.mp (joined.mem visible)).resolve_right beyond, beyond⟩
  · rintro ⟨member, lost, detached, joined⟩
    obtain ⟨last, path, isEnd⟩ := exists_end_below linear.toConsistent detached.1
    have asked := (whole.asked_iff linear).mpr ⟨Or.inr isEnd, detached.joined linear (Or.inr path)⟩
    refine ⟨fun new => new.2 member, last, asked, ?_, ?_, ?_⟩
    · rw [Engine.mem_hashesOf, whole.third_iff linear]
      exact fun new => new.2 isEnd.1
    · exact Finset.mem_union_right _ isEnd.1
    · exact linear.joined_trans joined (Joined.mono Finset.subset_union_right (Or.inl path))

/-- An exchange on logs without forks of which nothing is cut. -/
theorem Whole.ships (opening : x.first.records = []) :
    x.Ships records (hashSet near) (hashSet far) := by
  have consistent := linear.toConsistent
  obtain ⟨view₂, plan₂, pictures₂, ⟨_, _, planned₂⟩, sent₂, -⟩ := whole.second
  obtain ⟨view₃, plan₃, pictures₃, ⟨_, _, planned₃⟩, sent₃, -⟩ := whole.third
  obtain ⟨view₄, plan₄, pictures₄, ⟨_, _, planned₄⟩, sent₄, -⟩ := whole.fourth
  refine ⟨opening, fun _ => whole.second_iff linear, fun _ => whole.third_iff linear,
    fun _ => whole.fourth_iff linear, ?_, ?_, ?_⟩
  · exact sent₂ ▸ (Plan.first_of_planned pictures₂ consistent whole.first planned₂).sends.distinct_send
  · exact sent₃ ▸ (Plan.second_of_planned pictures₃ consistent whole.frontier planned₃).sends.distinct_send
  · exact sent₄ ▸ (Plan.third_of_planned pictures₄ consistent planned₄).sends.distinct_send

end Whole

/-! ## How much is shipped -/

/-- The number of records shipped. -/
def shipped (x : Exchange) : Nat :=
  x.first.records.length + x.second.records.length + x.third.records.length + x.fourth.records.length

/-- What phase four brings although the initiator holds it by then. -/
def repeated (x : Exchange) (near : Finset Hash) : Finset Hash :=
  hashSet x.fourth.records ∩ (near ∪ hashSet x.second.records)

theorem card_hashSet {log : List Record} (nodup : (hashesIn log).Nodup) :
    (hashSet log).card = log.length := by
  rw [hashSet, List.toFinset_card_of_nodup nodup, hashesIn, List.length_map]

variable {x : Exchange} (ships : x.Ships records near far)
include ships

/-- Beyond the difference of the two logs, an exchange ships what phase four repeats. -/
theorem Ships.shipped_eq : x.shipped = (symmDiff near far).card + (x.repeated near).card := by
  have second : hashSet x.second.records ⊆ far \ near := fun hash sent => by
    obtain ⟨member, lacking, -⟩ := (ships.second hash).mp (mem_hashSet.mp sent)
    exact Finset.mem_sdiff.mpr ⟨member, lacking⟩
  have third : hashSet x.third.records = near \ far := by
    ext hash
    rw [mem_hashSet, ships.third, Finset.mem_sdiff]
  -- what phase four does not repeat is what phase two left out
  have fourth : hashSet x.fourth.records \ (near ∪ hashSet x.second.records) =
      (far \ near) \ hashSet x.second.records := by
    ext hash
    rw [Finset.mem_sdiff, Finset.mem_sdiff, Finset.mem_sdiff, Finset.mem_union, mem_hashSet, mem_hashSet,
      ships.fourth, not_or]
    constructor
    · rintro ⟨⟨member, -⟩, lacking, unsent⟩
      exact ⟨⟨member, lacking⟩, unsent⟩
    · rintro ⟨⟨member, lacking⟩, unsent⟩
      have detached := (detached_iff ships.second member).mpr (not_or.mpr ⟨lacking, unsent⟩)
      exact ⟨⟨member, hash, detached, .refl hash⟩, lacking, unsent⟩
  have parts := Finset.card_inter_add_card_sdiff (hashSet x.fourth.records)
    (near ∪ hashSet x.second.records)
  have rest := Finset.card_sdiff_add_card_eq_card second
  have difference : (symmDiff near far).card = (near \ far).card + (far \ near).card := by
    rw [symmDiff_def, Finset.sup_eq_union, Finset.card_union_of_disjoint disjoint_sdiff_sdiff]
  rw [fourth] at parts
  rw [shipped, ships.first, ← card_hashSet ships.second_nodup, ← card_hashSet ships.third_nodup,
    ← card_hashSet ships.fourth_nodup, third, difference, repeated, List.length_nil]
  omega

/-- Phase four repeats nothing exactly if, in the log of both, no record that phase two could reach is
joined to one that it could not. -/
theorem Ships.repeated_eq_empty_iff : x.repeated near = ∅ ↔ ∀ hash ∈ far, ∀ lost,
    Detached records near far lost → Joined records (near ∪ far) hash lost →
      Detached records near far hash := by
  constructor
  · intro nothing hash member lost detached joined
    by_contra attached
    have sent := (ships.fourth hash).mpr ⟨member, lost, detached, joined⟩
    have held := not_not.mp ((detached_iff ships.second member).not.mp attached)
    have repeated : hash ∈ x.repeated near := Finset.mem_inter.mpr
      ⟨mem_hashSet.mpr sent, Finset.mem_union.mpr (held.imp_right mem_hashSet.mpr)⟩
    rw [nothing] at repeated
    cases repeated
  · intro alone
    apply Finset.eq_empty_of_forall_notMem
    intro hash repeated
    obtain ⟨sent, held⟩ := Finset.mem_inter.mp repeated
    obtain ⟨member, lost, detached, joined⟩ := (ships.fourth hash).mp (mem_hashSet.mp sent)
    refine (detached_iff ships.second member).mp (alone hash member lost detached joined) ?_
    exact (Finset.mem_union.mp held).imp_right mem_hashSet.mp

end Exchange

/-! ## Exchanges on one chain -/

namespace Sample

def tip : Record := plain 3 2 .zero

/-- A chain of three records. -/
def line : List Record := [trunk, twig, tip]

theorem isLine_line : IsLine line := ⟨by decide, by simp [line]; decide, by decide, by decide⟩

theorem engine_reachable_line {batch : List Record} (drawn : ∀ r ∈ batch, r ∈ line) :
    (engine batch).Reachable {r | r ∈ line} :=
  engine_reachable_of isLine_line.linear.no_null drawn

/-- Without the record between them the other two are not linked, so the last one is out of reach of a
side that holds only the first two. -/
theorem detached_tip :
    Detached {r | r ∈ line} {trunk.hash, twig.hash} {trunk.hash, tip.hash} tip.hash := by
  have unlinked : ∀ prev child, ¬ Parent {r | r ∈ line} {trunk.hash, tip.hash} prev child := by
    rintro prev child ⟨prevIn, childIn, r, member, rfl, rfl⟩
    have apart : ∀ r ∈ line, r.prev ∈ ({trunk.hash, tip.hash} : Finset Hash) →
        r.hash ∉ ({trunk.hash, tip.hash} : Finset Hash) := by decide
    exact apart r member prevIn childIn
  have alone : ∀ {hash other}, Leads {r | r ∈ line} {trunk.hash, tip.hash} hash other → hash = other := by
    intro hash other path
    rcases Relation.ReflTransGen.cases_head path with same | ⟨_, step, -⟩
    · exact same
    · exact absurd step (unlinked _ _)
  refine ⟨by decide, fun held known joined => ?_⟩
  obtain rfl : tip.hash = held := joined.elim alone fun path => (alone path).symm
  exact absurd known (by decide)

theorem joined_tip : Joined {r | r ∈ line} ({trunk.hash, twig.hash} ∪ {trunk.hash, tip.hash})
    trunk.hash tip.hash :=
  Or.inl (.head ⟨by decide, by decide, twig, by simp [line], rfl, rfl⟩
    (.single ⟨by decide, by decide, tip, by simp [line], rfl, rfl⟩))

end Sample

section Chain

variable {chain : List Record} (line : IsLine chain) {a b : Engine} {aName bName : NodeId} {t : Times}
  (aReached : a.Reachable {r | r ∈ chain}) (bReached : b.Reachable {r | r ∈ chain})
  (aReady : a.Ready t.start bName) (bReady : b.Ready t.first aName) (prompt : t.Prompt a.settings b.settings)
  (nearIs : near = hashSet a.store.log) (farIs : far = hashSet b.store.log)
  (initiatorLimit : (near ∪ far).card ≤ a.settings.traversalLimit)
  (receiverLimit : (near ∪ far).card ≤ b.settings.traversalLimit)
  (initiatorRecords : (near ∪ far).card ≤ a.settings.recordBudget)
  (receiverRecords : (near ∪ far).card ≤ b.settings.recordBudget)
  (lacked : (frontierSet {r | r ∈ chain} far \ near).card ≤ a.settings.wantedBudget)
include line aReached bReached aReady bReady prompt nearIs farIs initiatorLimit receiverLimit
  initiatorRecords receiverRecords lacked

theorem exchange_ships :
    ∃ x : Exchange, x.Runs aName bName t .nothing a b ∧ x.Ships {r | r ∈ chain} near far := by
  have consistent := line.linear.toConsistent
  obtain ⟨ca, aSound⟩ := aReached.sound consistent
  obtain ⟨cb, bSound⟩ := bReached.sound consistent
  rw [aSound.holds.store.log_eq] at nearIs
  rw [bSound.holds.store.log_eq] at farIs
  obtain ⟨x, -, -, runs, between, -⟩ := Engine.exchange_runs consistent aSound bSound aReady bReady prompt
    Meanwhile.drawn_nothing
  change x.Between _ _ _ ca.records cb.records at between
  have both : hashSet (ca.records ++ cb.records) = near ∪ far := by
    ext hash
    simp [nearIs, farIs]
  have whole := between.whole consistent (both ▸ initiatorLimit) (both ▸ receiverLimit)
    (both ▸ initiatorRecords) (both ▸ receiverRecords) (farIs ▸ nearIs ▸ lacked)
  refine ⟨x, runs, ?_⟩
  rw [nearIs, farIs]
  exact whole.ships line.linear between.opening

/-- One exchange between two replicas that hold any parts of one chain, with no other writes. Phase two
ships what the initiator lacks of the receiver's runs in which it holds something, phase three what
the receiver lacks, and phase four all records of the receiver's that are joined in the log of both to
a run of which the initiator held nothing. Beyond the difference of the two logs this repeats what of
phase four the initiator holds by then. -/
theorem exchange_ships_gaps : ∃ x : Exchange, x.Runs aName bName t .nothing a b ∧
    x.Ships {r | r ∈ chain} near far ∧ x.shipped = (symmDiff near far).card + (x.repeated near).card ∧
    (x.shipped = (symmDiff near far).card ↔ ∀ hash ∈ far, ∀ lost,
      Detached {r | r ∈ chain} near far lost → Joined {r | r ∈ chain} (near ∪ far) hash lost →
        Detached {r | r ∈ chain} near far hash) := by
  obtain ⟨x, runs, ships⟩ := exchange_ships line aReached bReached aReady bReady prompt nearIs farIs
    initiatorLimit receiverLimit initiatorRecords receiverRecords lacked
  refine ⟨x, runs, ships, ships.shipped_eq, ?_⟩
  rw [ships.shipped_eq, Nat.add_eq_left, Finset.card_eq_zero, ships.repeated_eq_empty_iff]

end Chain

/-- A side that holds the middle of a chain of three, and one that holds the other two. -/
theorem exchange_ships_gaps_line : ∃ x : Exchange,
    x.Runs ⟨.fill 32 1⟩ ⟨.fill 32 2⟩ ⟨0, 0, 0, 0, 0⟩ .nothing (Sample.engine [Sample.twig])
      (Sample.engine [Sample.trunk, Sample.tip]) ∧
    x.Ships {r | r ∈ Sample.line} {Sample.twig.hash} {Sample.trunk.hash, Sample.tip.hash} ∧
    x.shipped = (symmDiff {Sample.twig.hash} {Sample.trunk.hash, Sample.tip.hash} : Finset Hash).card +
      (x.repeated {Sample.twig.hash}).card ∧
    (x.shipped = (symmDiff {Sample.twig.hash} {Sample.trunk.hash, Sample.tip.hash} : Finset Hash).card ↔
      ∀ hash ∈ ({Sample.trunk.hash, Sample.tip.hash} : Finset Hash), ∀ lost,
        Detached {r | r ∈ Sample.line} {Sample.twig.hash} {Sample.trunk.hash, Sample.tip.hash} lost →
        Joined {r | r ∈ Sample.line} ({Sample.twig.hash} ∪ {Sample.trunk.hash, Sample.tip.hash}) hash lost →
        Detached {r | r ∈ Sample.line} {Sample.twig.hash} {Sample.trunk.hash, Sample.tip.hash} hash) :=
  exchange_ships_gaps Sample.isLine_line (Sample.engine_reachable_line (by decide))
    (Sample.engine_reachable_line (by decide)) (.inl rfl) (.inl rfl) ⟨by decide, by decide, by decide⟩
    (by decide) (by decide) (by decide) (by decide) (by decide) (by decide)
    (Nat.le_trans (Finset.card_le_card (Finset.sdiff_subset.trans frontierSet_subset)) (by decide))

/-- Where the receiver lacks the middle of the chain and the initiator its end, phase four repeats the
first record, which both hold. -/
theorem exchange_repeats_held : IsLine Sample.line ∧
    (Sample.engine [Sample.trunk, Sample.twig]).store.log = [Sample.trunk, Sample.twig] ∧
    (Sample.engine [Sample.trunk, Sample.tip]).store.log = [Sample.trunk, Sample.tip] ∧
    ∃ x : Exchange, x.Runs ⟨.fill 32 1⟩ ⟨.fill 32 2⟩ ⟨0, 0, 0, 0, 0⟩ .nothing
        (Sample.engine [Sample.trunk, Sample.twig]) (Sample.engine [Sample.trunk, Sample.tip]) ∧
      Sample.trunk.hash ∈ hashesIn x.fourth.records ∧ x.shipped = 3 ∧
      (symmDiff (hashSet [Sample.trunk, Sample.twig]) (hashSet [Sample.trunk, Sample.tip])).card = 2 := by
  let near : Finset Hash := {Sample.trunk.hash, Sample.twig.hash}
  let far : Finset Hash := {Sample.trunk.hash, Sample.tip.hash}
  have nearIs : near = hashSet (Sample.engine [Sample.trunk, Sample.twig]).store.log := by decide
  have farIs : far = hashSet (Sample.engine [Sample.trunk, Sample.tip]).store.log := by decide
  obtain ⟨x, runs, ships⟩ := exchange_ships Sample.isLine_line (t := ⟨0, 0, 0, 0, 0⟩)
    (Sample.engine_reachable_line (by decide)) (Sample.engine_reachable_line (by decide)) (.inl rfl)
    (.inl rfl) ⟨by decide, by decide, by decide⟩ nearIs farIs (by decide) (by decide) (by decide) (by decide)
    (Nat.le_trans (Finset.card_le_card (Finset.sdiff_subset.trans frontierSet_subset)) (by decide))
  have sent : Sample.trunk.hash ∈ hashesIn x.fourth.records :=
    (ships.fourth _).mpr ⟨by decide, _, Sample.detached_tip, Sample.joined_tip⟩
  have repeated : x.repeated near = {Sample.trunk.hash} := by
    ext hash
    rw [Exchange.repeated, Finset.mem_inter, Finset.mem_union, mem_hashSet, mem_hashSet,
      Finset.mem_singleton]
    constructor
    · rintro ⟨again, held⟩
      have member := ((ships.fourth hash).mp again).1
      rcases Finset.mem_insert.mp member with same | same
      · exact same
      · obtain rfl := Finset.mem_singleton.mp same
        exact absurd held ((detached_iff ships.second member).mp Sample.detached_tip)
    · rintro rfl
      exact ⟨sent, Or.inl (by decide)⟩
  have difference : (symmDiff near far).card = 2 := by decide
  refine ⟨Sample.isLine_line, by decide, by decide, x, runs, sent, ?_, by decide⟩
  rw [ships.shipped_eq, difference, repeated, Finset.card_singleton]

end HashLog
