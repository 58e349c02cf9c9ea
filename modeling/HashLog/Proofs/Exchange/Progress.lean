import HashLog.Exchange.Session
import HashLog.Proofs.Exchange.Union
import Mathlib.Data.Finset.SymmDiff
/-!
Progress whatever the limits and budgets. Every list of an exchange may be cut after its first
element and every walk after its first record, and yet the first list that is not empty begins with
a hash that is new to its receiver. If all are empty both frontiers agree, and logs with one frontier
are one log (`Between.unequal`). So exchanges that go on bring two logs together, at latest after as
many as there are records that only one of them holds.
-/
namespace HashLog

variable {records : Set Record} {near far : List Record} {hash : Hash}

namespace Exchange

variable {x : Exchange} {initiator receiver : Settings}

/-- The messages in order. -/
def messages (x : Exchange) : List Message := [x.first, x.second, x.third, x.fourth]

private theorem head_of_take {hashes rest : List Hash} {budget : Nat} (positive : 0 < budget)
    (taken : hashesIn near = hashes.take budget) (split : hashes = hash :: rest) :
    hash ∈ hashesIn near := by
  obtain ⟨fewer, rfl⟩ := Nat.exists_eq_succ_of_ne_zero (Nat.ne_of_gt positive)
  rw [taken, split, List.take_succ_cons]
  exact List.mem_cons_self

private theorem nil_of_take {hashes : List Hash} {budget : Nat}
    (taken : hashesIn near = hashes.take budget) (none : hashes = []) : near = [] := by
  rw [none, List.take_nil] at taken
  exact List.map_eq_nil_iff.mp taken

/-- Between unequal logs some message carries a record that its receiver did not hold. -/
theorem Between.unequal (between : x.Between records initiator receiver near far)
    (consistent : Consistent records) (initiatorLimit : 0 < initiator.traversalLimit)
    (receiverLimit : 0 < receiver.traversalLimit) (unequal : hashSet near ≠ hashSet far) :
    (∃ hash, hash ∉ hashesIn near ∧
      (hash ∈ hashesIn x.second.records ∨ hash ∈ hashesIn x.fourth.records)) ∨
    ∃ hash, hash ∉ hashesIn far ∧ hash ∈ hashesIn x.third.records := by
  obtain ⟨-, frontier₁, ⟨view₂, plan₂, pictures₂, planned₂, carries₂⟩, frontier₂,
    ⟨view₃, plan₃, pictures₃, planned₃, carries₃⟩, ⟨view₄, plan₄, pictures₄, planned₄, carries₄⟩⟩ := between
  have first := Plan.first_of_planned pictures₂ consistent frontier₁ planned₂
  cases sent₂ : plan₂.send with
  | cons hash rest =>
    have new := first.first receiverLimit hash rest sent₂
    exact Or.inl ⟨hash, fun held => new (mem_hashSet.mpr held),
      Or.inl (head_of_take Settings.recordBudget_pos carries₂.sent sent₂)⟩
  | nil =>
    -- nothing was sent in phase two, so what the initiator shows is what it showed before
    have aligned := first.idle receiverLimit sent₂
    have none₂ : x.second.records = [] := nil_of_take carries₂.sent sent₂
    rw [none₂] at pictures₃ planned₃
    have nothing : ∀ hash, hash ∉ Engine.hashesOf [] := by simp [hashesIn]
    have second := Plan.second_of_planned pictures₃ consistent frontier₂ planned₃
    cases sent₃ : plan₃.send with
    | cons hash rest =>
      have new := second.first initiatorLimit nothing aligned hash rest sent₃
      exact Or.inr ⟨hash, fun held => new (mem_hashSet.mpr held),
        head_of_take Settings.recordBudget_pos carries₃.sent sent₃⟩
    | nil =>
      have none₃ : x.third.records = [] := nil_of_take carries₃.sent sent₃
      rw [none₃] at pictures₄ planned₄
      have third := Plan.third_of_planned pictures₄ consistent planned₄
      cases asked : plan₃.wanted with
      | nil => exact absurd (second.idle initiatorLimit nothing aligned sent₃ asked) unequal
      | cons addr rest =>
        obtain ⟨listed, lacking⟩ := (second.asks.wanted addr).mp (asked ▸ List.mem_cons_self)
        obtain ⟨fewer, budget⟩ :=
          Nat.exists_eq_succ_of_ne_zero (Nat.ne_of_gt (initiator.wantedBudget_pos))
        have wanted : x.third.wanted = addr :: rest.take fewer := by
          rw [carries₃.asked, asked, budget, List.take_succ_cons]
        obtain ⟨later, sent₄⟩ := third.first receiverLimit nothing addr _ wanted
          (listed.elim And.left And.left)
        exact Or.inl ⟨addr, fun held => lacking (mem_hashSet.mpr held),
          Or.inr (head_of_take Settings.recordBudget_pos carries₄.sent sent₄)⟩

/-- Between equal logs no message carries a record. -/
theorem Between.equal (between : x.Between records initiator receiver near far)
    (consistent : Consistent records) (initiatorLimit : 0 < initiator.traversalLimit)
    (receiverLimit : 0 < receiver.traversalLimit) (equal : hashSet near = hashSet far) :
    x.second.records = [] ∧ x.third.records = [] ∧ x.fourth.records = [] := by
  obtain ⟨-, frontier₁, ⟨view₂, plan₂, pictures₂, planned₂, carries₂⟩, frontier₂,
    ⟨view₃, plan₃, pictures₃, planned₃, carries₃⟩, ⟨view₄, plan₄, pictures₄, planned₄, carries₄⟩⟩ := between
  have first := Plan.first_of_planned pictures₂ consistent frontier₁ planned₂
  have none₂ : x.second.records = [] := by
    refine nil_of_take carries₂.sent (List.eq_nil_iff_forall_not_mem.mpr ?_)
    intro hash sent
    obtain ⟨head, rest, split⟩ := List.exists_cons_of_ne_nil (List.ne_nil_of_mem sent)
    apply first.first receiverLimit head rest split
    change head ∈ hashSet near
    rw [equal]
    exact first.sends.drawn head (split ▸ List.mem_cons_self)
  rw [none₂] at pictures₃ planned₃
  have second := Plan.second_of_planned pictures₃ consistent frontier₂ planned₃
  obtain ⟨sent₃, asked⟩ := second.same initiatorLimit equal
  have none₃ : x.third.records = [] := nil_of_take carries₃.sent sent₃
  rw [none₃] at pictures₄ planned₄
  have third := Plan.third_of_planned pictures₄ consistent planned₄
  have unasked : x.third.wanted = [] := by rw [carries₃.asked, asked, List.take_nil]
  exact ⟨none₂, none₃, nil_of_take carries₄.sent (third.idle unasked)⟩

/-- The messages carry records exactly if the logs differ. -/
theorem Between.ships (between : x.Between records initiator receiver near far)
    (consistent : Consistent records) (initiatorLimit : 0 < initiator.traversalLimit)
    (receiverLimit : 0 < receiver.traversalLimit) :
    recordsShipped x.messages = 0 ↔ hashSet near = hashSet far := by
  constructor
  · intro nothing
    by_contra unequal
    have empty : x.second.records = [] ∧ x.third.records = [] ∧ x.fourth.records = [] := by
      simpa [recordsShipped, messages, between.opening] using nothing
    rcases between.unequal consistent initiatorLimit receiverLimit unequal with
      ⟨hash, -, sent | sent⟩ | ⟨hash, -, sent⟩
    · simp [empty.1, hashesIn] at sent
    · simp [empty.2.2, hashesIn] at sent
    · simp [empty.2.1, hashesIn] at sent
  · intro equal
    obtain ⟨none₂, none₃, none₄⟩ := between.equal consistent initiatorLimit receiverLimit equal
    simp [recordsShipped, messages, between.opening, none₂, none₃, none₄]

end Exchange

/-- Exchanges between two engines one after the other, either of which may start each, with no other
writes and none of them cut short. -/
inductive Exchanges (aName bName : NodeId) : Nat → Engine → Engine → Engine → Engine → Prop where
  | none {a b : Engine} : Exchanges aName bName 0 a b a b
  | forth {n : Nat} {a b a' b' : Engine} {x : Exchange} {t : Times}
      (prompt : t.Prompt a.settings b.settings) (runs : x.Runs aName bName t .nothing a b)
      (rest : Exchanges aName bName n x.initiator x.receiver a' b') :
      Exchanges aName bName (n + 1) a b a' b'
  | back {n : Nat} {a b a' b' : Engine} {x : Exchange} {t : Times}
      (prompt : t.Prompt b.settings a.settings) (runs : x.Runs bName aName t .nothing b a)
      (rest : Exchanges aName bName n x.receiver x.initiator a' b') :
      Exchanges aName bName (n + 1) a b a' b'

/-- How far two logs are apart. -/
def apart (near far : List Record) : Nat := (symmDiff (hashSet near) (hashSet far)).card

/-- Logs that grow within their union, one of them at least, come closer. -/
theorem apart_lt {near' far' : List Record}
    (nearGrows : hashSet near ⊆ hashSet near') (farGrows : hashSet far ⊆ hashSet far')
    (nearWithin : hashSet near' ⊆ hashSet near ∪ hashSet far)
    (farWithin : hashSet far' ⊆ hashSet near ∪ hashSet far)
    (gained : (∃ hash ∈ hashSet near', hash ∉ hashSet near) ∨ ∃ hash ∈ hashSet far', hash ∉ hashSet far) :
    apart near' far' < apart near far := by
  refine Finset.card_lt_card ((Finset.ssubset_iff_of_subset ?_).mpr ?_)
  · intro hash member
    rw [Finset.mem_symmDiff] at member ⊢
    rcases member with ⟨inNear, notFar⟩ | ⟨inFar, notNear⟩
    · have absent : hash ∉ hashSet far := fun held => notFar (farGrows held)
      exact Or.inl ⟨(Finset.mem_union.mp (nearWithin inNear)).resolve_right absent, absent⟩
    · have absent : hash ∉ hashSet near := fun held => notNear (nearGrows held)
      exact Or.inr ⟨(Finset.mem_union.mp (farWithin inFar)).resolve_left absent, absent⟩
  · rcases gained with ⟨hash, new, old⟩ | ⟨hash, new, old⟩
    · have there := (Finset.mem_union.mp (nearWithin new)).resolve_left old
      exact ⟨hash, Finset.mem_symmDiff.mpr (Or.inr ⟨there, old⟩),
        by simp [Finset.mem_symmDiff, new, farGrows there]⟩
    · have there := (Finset.mem_union.mp (farWithin new)).resolve_right old
      exact ⟨hash, Finset.mem_symmDiff.mpr (Or.inl ⟨there, old⟩),
        by simp [Finset.mem_symmDiff, new, nearGrows there]⟩

/-- What a complete exchange without other writes does to the logs of two engines. -/
structure Exchange.Advances (x : Exchange) (a b : Engine) : Prop where
  ships : recordsShipped x.messages = 0 ↔ hashSet a.store.log = hashSet b.store.log
  gains : hashSet a.store.log ≠ hashSet b.store.log →
    (∃ r ∈ x.initiator.store.log, r.hash ∉ hashesIn a.store.log) ∨
      ∃ r ∈ x.receiver.store.log, r.hash ∉ hashesIn b.store.log
  initiator_keeps : a.store.log ⊆ x.initiator.store.log
  receiver_keeps : b.store.log ⊆ x.receiver.store.log
  initiator_within : x.initiator.store.log ⊆ a.store.log ++ b.store.log
  receiver_within : x.receiver.store.log ⊆ a.store.log ++ b.store.log

namespace Engine

variable {a b a' b' : Engine} {ca cb : Commits} {aName bName : NodeId} {t : Times}

/-- An exchange between ready engines runs to its end and advances their logs. -/
private theorem exchange_advances (consistent : Consistent records) (aSound : a.Sound records ca)
    (bSound : b.Sound records cb) (aReady : a.Ready t.start bName) (bReady : b.Ready t.first aName)
    (prompt : t.Prompt a.settings b.settings) (aLimit : 0 < a.settings.traversalLimit)
    (bLimit : 0 < b.settings.traversalLimit) :
    ∃ x : Exchange, x.Runs aName bName t .nothing a b ∧ x.Advances a b ∧
      (∃ ca', a.Grows records ca x.initiator ca') ∧ (∃ cb', b.Grows records cb x.receiver cb') ∧
      x.initiator.conversation bName = .resting ∧ x.receiver.conversation aName = .thirdReceived := by
  obtain ⟨x, ca', cb', runs, between, aGrows, bGrows, aLog, bLog, aState, bState⟩ :=
    exchange_runs consistent aSound bSound aReady bReady prompt Meanwhile.drawn_nothing
  have between : x.Between records a.settings b.settings ca.records cb.records := between
  have unchanged : ∀ hash, hash ∉ hashesIn (Meanwhile.nothing.initiator) ∧
      hash ∉ hashesIn (Meanwhile.nothing.receiverFirst.flatten) ∧
      hash ∉ hashesIn (Meanwhile.nothing.receiver) := by
    simp [Meanwhile.nothing, Meanwhile.initiator, Meanwhile.receiver, hashesIn]
  obtain ⟨second, third, fourth⟩ := between.drawn consistent
  have aLog : ∀ hash, hash ∈ hashesIn ca'.records ↔ hash ∈ hashesIn ca.records ∨
      hash ∈ hashesIn x.second.records ∨ hash ∈ hashesIn x.fourth.records := fun hash => by
    simp only [aLog, (unchanged hash).1, or_false]
  have bLog : ∀ hash, hash ∈ hashesIn cb'.records ↔ hash ∈ hashesIn cb.records ∨
      hash ∈ hashesIn x.third.records := fun hash => by
    simp only [bLog, (unchanged hash).2, or_false, false_or]
  refine ⟨x, runs, ?_, ⟨ca', aGrows⟩, ⟨cb', bGrows⟩, aState, bState⟩
  have logs : a.store.log = ca.records ∧ b.store.log = cb.records :=
    ⟨aSound.holds.store.log_eq, bSound.holds.store.log_eq⟩
  have logs' : x.initiator.store.log = ca'.records ∧ x.receiver.store.log = cb'.records :=
    ⟨aGrows.sound.holds.store.log_eq, bGrows.sound.holds.store.log_eq⟩
  refine ⟨?_, ?_, ?_, ?_, ?_, ?_⟩
  · rw [logs.1, logs.2]
    exact between.ships consistent aLimit bLimit
  · intro unequal
    rw [logs.1, logs.2] at unequal
    rw [logs.1, logs.2, logs'.1, logs'.2]
    rcases between.unequal consistent aLimit bLimit unequal with ⟨hash, new, sent⟩ | ⟨hash, new, sent⟩
    · obtain ⟨r, listed, rfl⟩ := mem_hashesIn.mp ((aLog hash).mpr (Or.inr sent))
      exact Or.inl ⟨r, listed, new⟩
    · obtain ⟨r, listed, rfl⟩ := mem_hashesIn.mp ((bLog hash).mpr (Or.inr sent))
      exact Or.inr ⟨r, listed, new⟩
  · rw [logs.1, logs'.1]
    exact aGrows.subset
  · rw [logs.2, logs'.2]
    exact bGrows.subset
  · rw [logs.1, logs.2, logs'.1]
    refine consistent.subset_append aGrows.sound.drawn aSound.drawn bSound.drawn fun hash known => ?_
    exact ((aLog hash).mp known).imp_right fun sent => sent.elim (second hash) (fourth hash)
  · rw [logs.1, logs.2, logs'.2]
    refine consistent.subset_append bGrows.sound.drawn aSound.drawn bSound.drawn fun hash known => ?_
    rcases (bLog hash).mp known with old | sent
    · exact Or.inr old
    · exact (third hash sent).imp_right (second hash)

end Engine

theorem apart_eq_zero : apart near far = 0 ↔ hashSet near = hashSet far := by
  rw [apart, Finset.card_eq_zero, ← Finset.bot_eq_empty, symmDiff_eq_bot]

theorem apart_comm (near far : List Record) : apart near far = apart far near := by
  rw [apart, apart, symmDiff_comm]

private theorem hashSet_append : hashSet (near ++ far) = hashSet near ∪ hashSet far := by
  simp [hashSet]

/-- Every exchange brings two logs closer by one record at least, or finds them equal. -/
theorem Exchange.Advances.apart_le {x : Exchange} {a b : Engine} (advances : x.Advances a b) :
    apart x.initiator.store.log x.receiver.store.log ≤ apart a.store.log b.store.log - 1 := by
  have nearGrows := hashSet_mono advances.initiator_keeps
  have farGrows := hashSet_mono advances.receiver_keeps
  have nearWithin := hashSet_append ▸ hashSet_mono advances.initiator_within
  have farWithin := hashSet_append ▸ hashSet_mono advances.receiver_within
  by_cases equal : hashSet a.store.log = hashSet b.store.log
  · rw [equal, Finset.union_self] at nearWithin farWithin
    have same : hashSet x.initiator.store.log = hashSet x.receiver.store.log :=
      (Finset.Subset.antisymm nearWithin (equal ▸ nearGrows)).trans
        (Finset.Subset.antisymm farWithin farGrows).symm
    rw [apart_eq_zero.mpr same]
    exact Nat.zero_le _
  · have new : ∀ {r : Record} {log : List Record}, r ∈ log → r.hash ∈ hashSet log :=
      fun listed => mem_hashSet.mpr (mem_hashesIn.mpr ⟨_, listed, rfl⟩)
    refine Nat.le_sub_one_of_lt (apart_lt nearGrows farGrows nearWithin farWithin ?_)
    refine (advances.gains equal).imp ?_ ?_
    · rintro ⟨r, listed, absent⟩
      exact ⟨r.hash, new listed, fun held => absent (mem_hashSet.mp held)⟩
    · rintro ⟨r, listed, absent⟩
      exact ⟨r.hash, new listed, fun held => absent (mem_hashSet.mp held)⟩

/-- Exchanges that go on bring two logs together. -/
private theorem Exchanges.apart_le (consistent : Consistent records) {aName bName : NodeId} {n : Nat}
    {a b a' b' : Engine} (exchanges : Exchanges aName bName n a b a' b') {ca cb : Commits}
    (aSound : a.Sound records ca) (bSound : b.Sound records cb)
    (aIdle : (a.peerState bName).isIdle = true) (bIdle : (b.peerState aName).isIdle = true)
    (aLimit : 0 < a.settings.traversalLimit) (bLimit : 0 < b.settings.traversalLimit) :
    (∃ ca', a'.Sound records ca') ∧ (∃ cb', b'.Sound records cb') ∧
      apart a'.store.log b'.store.log ≤ apart a.store.log b.store.log - n := by
  induction exchanges generalizing ca cb with
  | none => exact ⟨⟨ca, aSound⟩, ⟨cb, bSound⟩, Nat.le_refl _⟩
  | forth prompt runs _ ih =>
    obtain ⟨x, runs', advances, ⟨ca', aGrows⟩, ⟨cb', bGrows⟩, aState, bState⟩ :=
      Engine.exchange_advances consistent aSound bSound (Or.inl aIdle) (Or.inl bIdle) prompt aLimit bLimit
    obtain rfl := runs'.unique runs
    obtain ⟨aSound', bSound', closer⟩ := ih aGrows.sound bGrows.sound
      (by rw [Engine.peerState, aState]; rfl) (by rw [Engine.peerState, bState]; rfl)
      (aGrows.settings ▸ aLimit) (bGrows.settings ▸ bLimit)
    refine ⟨aSound', bSound', ?_⟩
    have step := advances.apart_le
    omega
  | @back n a b a' b' _ _ prompt runs _ ih =>
    obtain ⟨x, runs', advances, ⟨cb', bGrows⟩, ⟨ca', aGrows⟩, bState, aState⟩ :=
      Engine.exchange_advances consistent bSound aSound (Or.inl bIdle) (Or.inl aIdle) prompt bLimit aLimit
    obtain rfl := runs'.unique runs
    obtain ⟨aSound', bSound', closer⟩ := ih aGrows.sound bGrows.sound
      (by rw [Engine.peerState, aState]; rfl) (by rw [Engine.peerState, bState]; rfl)
      (aGrows.settings ▸ aLimit) (bGrows.settings ▸ bLimit)
    refine ⟨aSound', bSound', ?_⟩
    have step := advances.apart_le
    rw [apart_comm x.initiator.store.log, apart_comm b.store.log] at step
    omega

/-- Complete exchanges between two engines in reachable states make progress, whatever the limits on
walks, records and requests: each ships something exactly if the logs differ, then one of them gains,
and none loses anything or gains what neither held. As many exchanges as there are records that only
one log holds make the logs equal. -/
theorem exchanges_progress {a b : Engine} {aName bName : NodeId} (consistent : Consistent records)
    (aReached : a.Reachable records) (bReached : b.Reachable records)
    (aIdle : (a.peerState bName).isIdle = true) (bIdle : (b.peerState aName).isIdle = true)
    (aLimit : 0 < a.settings.traversalLimit) (bLimit : 0 < b.settings.traversalLimit) :
    (∀ t : Times, t.Prompt a.settings b.settings → ∃ x : Exchange,
      x.Runs aName bName t .nothing a b ∧ x.Advances a b) ∧
    ∀ n a' b', Exchanges aName bName n a b a' b' → apart a.store.log b.store.log ≤ n →
      ∀ r, r ∈ a'.store.log ↔ r ∈ b'.store.log := by
  obtain ⟨ca, aSound⟩ := aReached.sound consistent
  obtain ⟨cb, bSound⟩ := bReached.sound consistent
  refine ⟨?_, ?_⟩
  · intro t prompt
    obtain ⟨x, runs, advances, -⟩ := Engine.exchange_advances consistent aSound bSound (Or.inl aIdle)
      (Or.inl bIdle) prompt aLimit bLimit
    exact ⟨x, runs, advances⟩
  · intro n a' b' exchanges enough r
    obtain ⟨⟨ca', aSound'⟩, ⟨cb', bSound'⟩, closer⟩ :=
      exchanges.apart_le consistent aSound bSound aIdle bIdle aLimit bLimit
    have same := apart_eq_zero.mp (Nat.eq_zero_of_le_zero (by omega : apart a'.store.log b'.store.log ≤ 0))
    rw [aSound'.holds.store.log_eq, bSound'.holds.store.log_eq] at same ⊢
    by_cases member : r ∈ records
    · rw [consistent.mem_iff aSound'.drawn member, consistent.mem_iff bSound'.drawn member,
        ← mem_hashSet, same, mem_hashSet]
    · exact ⟨fun listed => absurd (aSound'.drawn r listed) member,
        fun listed => absurd (bSound'.drawn r listed) member⟩

/-- Two engines that hold one record each. -/
theorem exchanges_progress_pair :
    (∀ t : Times, t.Prompt (Sample.engine [Sample.trunk]).settings (Sample.engine [Sample.twig]).settings →
      ∃ x : Exchange, x.Runs ⟨.fill 32 1⟩ ⟨.fill 32 2⟩ t .nothing (Sample.engine [Sample.trunk])
        (Sample.engine [Sample.twig]) ∧
      x.Advances (Sample.engine [Sample.trunk]) (Sample.engine [Sample.twig])) ∧
    ∀ n a b, Exchanges ⟨.fill 32 1⟩ ⟨.fill 32 2⟩ n (Sample.engine [Sample.trunk])
        (Sample.engine [Sample.twig]) a b →
      apart (Sample.engine [Sample.trunk]).store.log (Sample.engine [Sample.twig]).store.log ≤ n →
      ∀ r, r ∈ a.store.log ↔ r ∈ b.store.log :=
  exchanges_progress Sample.pair_consistent (Sample.engine_reachable (by simp [Sample.pair]))
    (Sample.engine_reachable (by simp [Sample.pair])) rfl rfl (by decide) (by decide)

end HashLog
