import HashLog.Proofs.Exchange.Accounts
/-!
How conversations come and go on an engine over its store. Whatever peers send, whether it is answered
or refused, a slot holds a snapshot exactly while its conversation is under way, and the store has one
snapshot open for each such conversation (`conversations_hold_snapshots`).
-/
namespace HashLog

open SnapshotCall

/-! ## What an engine answers -/

namespace Engine

variable {e : Engine} {s : Snapshot} {peer : NodeId} {now started : Nat} {m : Message}
  {state : PeerState} {phase : Phase} {received : HashSet} {error : ExchangeError}

/-- An answer fails for a cycle or for the store. -/
private theorem answer_error {planned : Except Cycle Plan} {build : Plan → List Record → Message}
    (answered : (match planned with
      | .error cycle => Except.error (ExchangeError.cycleDetected cycle.repeated)
      | .ok plan => (e.readToSend plan.send).map (build plan)) = .error error) :
    error ≠ .protocolState state phase := by
  rintro rfl
  split at answered
  · cases answered
  · unfold readToSend at answered
    split at answered <;> cases answered

private theorem accept_error {batch : List Record} (refused : e.accept s batch = .error error) :
    error ≠ .protocolState state phase := by
  rintro rfl
  unfold accept at refused
  split at refused
  · cases refused
  · split at refused <;> cases refused

private theorem onFirst_ne : (e.onFirst now peer m).1 ≠ .error (.protocolState state phase) := by
  unfold onFirst
  split
  · simp
  · split
    · rename_i answered
      rw [answerFirst_eq] at answered
      exact fun same => answer_error answered (Except.error.inj same)
    · simp

private theorem onSecond_ne : (e.onSecond started s peer m).1 ≠ .error (.protocolState state phase) := by
  unfold onSecond
  split
  · rename_i refused
    exact fun same => accept_error refused (Except.error.inj same)
  · dsimp only
    split
    · rename_i answered
      rw [answerSecond_eq] at answered
      exact fun same => answer_error answered (Except.error.inj same)
    · simp

private theorem onThird_ne : (e.onThird s peer m).1 ≠ .error (.protocolState state phase) := by
  unfold onThird
  split
  · rename_i refused
    exact fun same => accept_error refused (Except.error.inj same)
  · split
    · rename_i answered
      rw [answerThird_eq] at answered
      exact fun same => answer_error answered (Except.error.inj same)
    · simp

private theorem onFourth_ne : (e.onFourth peer m).1 ≠ .error (.protocolState state phase) := by
  unfold onFourth
  split <;> simp

private theorem advance_ne (fits : Fits state phase) :
    (e.advance now peer m).1 ≠ .error (.protocolState state phase) := by
  unfold advance
  split
  · simp
  · split
    · exact onFirst_ne
    · exact onFirst_ne
    · exact onSecond_ne
    · exact onThird_ne
    · exact onFourth_ne
    · -- the phase is none that the state takes
      rintro ⟨⟩
      cases conversation : e.conversation peer <;> cases arrived : m.phase <;>
        simp_all [Conversation.state, Fits]

/-- A message that fits the state is not refused for it: no handler misses its snapshot. -/
theorem process_ne_protocolState (e : Engine) (now : Nat) (peer : NodeId) (m : Message)
    (fits : Fits state phase) : (e.process now peer m).1 ≠ .error (.protocolState state phase) := by
  have advanced : ((e.expire now peer).advance now peer m).1 ≠ .error (.protocolState state phase) :=
    advance_ne fits
  unfold process
  split
  · simp
  · rename_i ran
    rw [ran] at advanced
    exact advanced

/-- A conversation is under way and not too old. -/
private theorem not_ready_iff : ¬ e.Ready now peer ↔
    ∃ started, (e.conversation peer).started? = some started ∧ now ≤ started + e.settings.timeout := by
  unfold Ready peerState
  cases e.conversation peer <;>
    simp [Conversation.state, PeerState.isIdle, Conversation.isExpired, Conversation.started?]

/-- There is no first message exactly while a conversation is under way and not too old. -/
theorem generate_eq_none_iff : (e.generate now peer).1 = .ok none ↔
    ∃ started, (e.conversation peer).started? = some started ∧ now ≤ started + e.settings.timeout := by
  rw [← not_ready_iff]
  constructor
  · intro silent ready
    have idle := expire_idle ready
    unfold peerState at idle
    unfold generate at silent
    simp only [idle, ↓reduceIte] at silent
    split at silent <;> cases silent
  · intro busy
    obtain ⟨waiting, timely⟩ := not_or.mp busy
    have kept : e.expire now peer = e := expire_timely (Bool.eq_false_of_not_eq_true timely)
    unfold peerState at waiting
    simp only [generate, kept, waiting, Bool.false_eq_true, ↓reduceIte]

end Engine

/-! ## Snapshots and slots -/

/-- The numbers of open snapshots were given out. -/
theorem Store.Reachable.numbered {records : Set Record} {s : Store} (reached : s.Reachable records) :
    ∀ id ∈ s.registry.opened, id ≤ s.registry.last := by
  induction reached with
  | inMemory => exact fun _ opened => absurd opened Std.TreeSet.not_mem_emptyc
  | durable => exact fun _ opened => absurd opened Std.TreeSet.not_mem_emptyc
  | write _ _ ih =>
    rw [registry_write]
    exact ih
  | @createSnapshot s _ _ _ created ih =>
    obtain ⟨⟨cutoff, begins, ends⟩, -, same⟩ := map_eq_ok.mp created
    obtain ⟨-, rfl⟩ := Prod.mk.inj same
    intro id opened
    change id ∈ s.registry.opened.insert (s.registry.last + 1) at opened
    rw [Std.TreeSet.mem_insert, Std.LawfulEqCmp.compare_eq_iff_eq] at opened
    rcases opened with rfl | old
    · exact Nat.le_refl _
    · exact Nat.le_succ_of_le (ih id old)
  | @destroySnapshot s closed _ ih =>
    intro id opened
    change id ∈ s.registry.opened.erase closed at opened
    rw [Std.TreeSet.mem_erase] at opened
    exact ih id opened.2
  | @reopen s s' _ opened ih =>
    rcases s with ⟨m | t, registry⟩
    · obtain rfl := Except.ok.inj opened
      exact ih
    · obtain ⟨-, -, rfl⟩ := map_eq_ok.mp opened
      exact fun _ opened => absurd opened Std.TreeSet.not_mem_emptyc

/-- The open snapshots as a finite set. -/
private def openSet (registry : SnapshotRegistry) : Finset Nat := registry.opened.toList.toFinset

private theorem mem_openSet {registry : SnapshotRegistry} {id : Nat} :
    id ∈ openSet registry ↔ id ∈ registry.opened := by
  rw [openSet, List.mem_toFinset, Std.TreeSet.mem_toList]

private theorem card_openSet (registry : SnapshotRegistry) : (openSet registry).card = registry.count := by
  have distinct : registry.opened.toList.Nodup :=
    Std.TreeSet.distinct_toList.imp fun differs same => differs (Std.LawfulEqCmp.compare_eq_iff_eq.mpr same)
  rw [openSet, List.toFinset_card_of_nodup distinct, Std.TreeSet.length_toList]
  rfl

/-- As many snapshots are open, besides those of others, as slots hold one. -/
theorem Switchboard.Accounted.count {w : Switchboard} {own : NodeId → Option Nat} {store : Store}
    (accounted : w.Accounted {id | id ∈ store.registry.opened} own) : ∃ peers : Finset NodeId,
      (∀ peer, peer ∈ peers ↔ (w.slots peer).snapshot?.isSome = true) ∧
        w.engine.store.openSnapshots = store.openSnapshots + peers.card := by
  obtain ⟨-, held, distinct, balanced⟩ := accounted
  -- the live snapshots, each with the peer whose slot holds it
  have live : ∀ id, id ∈ openSet w.engine.store.registry \ openSet store.registry ↔
      ∃ peer, own peer = some id := by
    intro id
    rw [Finset.mem_sdiff, mem_openSet, mem_openSet, balanced.opened]
    constructor
    · exact fun listed => listed.1.resolve_left listed.2
    · intro named
      exact ⟨.inr named, balanced.apart id ((balanced.accounted id).mpr (.inr named))⟩
  choose owner owned using fun id => (live id).mp
  have injective : Function.Injective fun x : { id // id ∈ openSet w.engine.store.registry \
      openSet store.registry } => owner x.1 x.2 := by
    intro x y same
    have shared : own (owner x.1 x.2) = own (owner y.1 y.2) := congrArg own same
    rw [owned x.1 x.2, owned y.1 y.2] at shared
    exact Subtype.ext (Option.some.inj shared)
  refine ⟨(Finset.attach _).image fun x => owner x.1 x.2, ?_, ?_⟩
  · intro peer
    have holds : (w.slots peer).snapshot?.isSome = (own peer).isSome := by
      have same := congrArg Option.isSome (held peer)
      simpa [Slot.held?] using same
    rw [holds, Option.isSome_iff_exists, Finset.mem_image]
    constructor
    · rintro ⟨x, -, rfl⟩
      exact ⟨x.1, owned x.1 x.2⟩
    · rintro ⟨id, named⟩
      have member := (live id).mpr ⟨peer, named⟩
      exact ⟨⟨id, member⟩, Finset.mem_attach _ _, distinct _ _ id (owned id member) named⟩
  · have others : openSet store.registry ⊆ openSet w.engine.store.registry := by
      intro id listed
      rw [mem_openSet, balanced.opened]
      exact .inl (mem_openSet.mp listed)
    rw [Finset.card_image_of_injective _ injective, Finset.card_attach, Store.openSnapshots,
      Store.openSnapshots, ← card_openSet, ← card_openSet, Nat.add_comm]
    exact (Finset.card_sdiff_add_card_eq_card others).symm

/-! ## Conversations under way -/

/-- A conversation is under way. -/
def Slot.Busy (slot : Slot) : Prop :=
  slot.state = .firstSent ∨ slot.state = .thirdSent ∨ slot.state = .firstReceived

/-- The fields of a slot go together as those of a conversation do. -/
theorem Conversation.slot_fields (c : Conversation) :
    (c.slot.snapshot?.isSome = true ↔ c.slot.Busy) ∧
      (c.slot.started?.isSome = true ↔ c.slot.Busy) ∧
      (c.slot.state ≠ .thirdSent → c.slot.received = ∅) := by
  cases c <;> simp [slot, Slot.Busy, state, snapshot?, started?, received]

theorem Engine.operateAll_settings (e : Engine) (ops : List Operation) :
    (e.operateAll ops).2.settings = e.settings := by
  induction ops generalizing e with
  | nil => rfl
  | cons op rest ih =>
    have kept : (e.operate op).2.settings = e.settings := by
      cases op with
      | generate now peer => exact (stays_generate e now peer).settings
      | process now peer m => exact (e.process_receives now peer m).keeps.1
      | write batch => exact write_settings
    exact (ih _).trans kept

/-- Slots and snapshots in order on a switchboard that started over a store. -/
structure Switchboard.Orderly (w : Switchboard) (store : Store) (settings : Settings) : Prop where
  snapshot : ∀ peer, (w.slots peer).snapshot?.isSome = true ↔ (w.slots peer).Busy
  started : ∀ peer, (w.slots peer).started?.isSome = true ↔ (w.slots peer).Busy
  received : ∀ peer, (w.slots peer).state ≠ .thirdSent → (w.slots peer).received = ∅
  /-- Besides the snapshots of others, one is open for each conversation under way. -/
  opened : ∃ peers : Finset NodeId, (∀ peer, peer ∈ peers ↔ (w.slots peer).Busy) ∧
    w.engine.store.openSnapshots = store.openSnapshots + peers.card
  /-- No number is given out twice, nor one that others have. -/
  created : (createdIds w.calls).Nodup ∧ ∀ id ∈ createdIds w.calls, id ∉ store.registry.opened
  /-- No snapshot is destroyed twice, and none but those created. -/
  destroyed : (destroyedIds w.calls).Nodup ∧ destroyedIds w.calls ⊆ createdIds w.calls
  /-- The snapshot of a slot has not been destroyed. -/
  held : ∀ peer s, (w.slots peer).snapshot? = some s →
    ∃ id, s.id? = some id ∧ id ∈ createdIds w.calls ∧ id ∉ destroyedIds w.calls
  /-- A handler that needs the snapshot finds it. -/
  found : ∀ now peer m,
    ((w.line peer).process now m).1 ≠ .error (.protocolState .firstSent .second) ∧
      ((w.line peer).process now m).1 ≠ .error (.protocolState .firstReceived .third)
  /-- There is no first message exactly while a conversation is under way and not too old. -/
  silent : ∀ now peer, ((w.line peer).generate now).1 = .ok none ↔ (w.slots peer).Busy ∧
    ∃ started, (w.slots peer).started? = some started ∧ now ≤ started + settings.timeout

/-- A switchboard that follows an engine and whose books balance is in order. -/
theorem Switchboard.Follows.orderly {w : Switchboard} {e : Engine} {store : Store}
    {own : NodeId → Option Nat} (follows : w.Follows e)
    (accounted : w.Accounted {id | id ∈ store.registry.opened} own) :
    w.Orderly store e.settings := by
  have fields (peer : NodeId) := (e.conversation peer).slot_fields
  simp only [← follows.slots] at fields
  obtain ⟨peers, listed, count⟩ := accounted.count
  have balanced := accounted.balanced
  constructor
  case snapshot => exact fun peer => (fields peer).1
  case started => exact fun peer => (fields peer).2.1
  case received => exact fun peer => (fields peer).2.2
  case opened => exact ⟨peers, fun peer => (listed peer).trans (fields peer).1, count⟩
  case created => exact ⟨balanced.fresh, balanced.apart⟩
  case destroyed => exact ⟨balanced.once, fun id gone => (balanced.accounted id).mpr (.inl gone)⟩
  case held =>
    intro peer s kept
    have numbered := accounted.held peer
    rw [Slot.held?, kept, Option.map_some, eq_comm, Option.map_eq_some_iff] at numbered
    obtain ⟨id, named, same⟩ := numbered
    have live : ∃ peer, own peer = some id := ⟨peer, named⟩
    exact ⟨id, same.symm, (balanced.accounted id).mpr (.inr live), balanced.kept id live⟩
  case found =>
    intro now peer m
    rw [((follows.line peer).process now m).1]
    exact ⟨e.process_ne_protocolState now peer m trivial, e.process_ne_protocolState now peer m trivial⟩
  case silent =>
    intro now peer
    rw [((follows.line peer).generate now).1, Engine.generate_eq_none_iff]
    have same : (e.conversation peer).started? = (w.slots peer).started? := by
      rw [follows.slots]
      rfl
    rw [same, iff_and_self]
    rintro ⟨started, began, -⟩
    exact (fields peer).2.1.mp (by rw [began]; rfl)

/-- Conversations and snapshots stay in order on an engine over its store, whatever it is asked and
whatever peers send, answered or refused. Kept as loose fields its conversations do all that the engine
does, return all that it returns, and are in order after every run. -/
theorem conversations_hold_snapshots {store : Store} {settings : Settings} {e : Engine}
    (filled : store.Reachable Set.univ) (started : Engine.start .store store settings = .ok e)
    (ops : List Operation) :
    ((Switchboard.start e).operateAll ops).1 = (e.operateAll ops).1 ∧
      ((Switchboard.start e).operateAll ops).2.Follows (e.operateAll ops).2 ∧
      ((Switchboard.start e).operateAll ops).2.Orderly store settings := by
  obtain rfl := Except.ok.inj started
  have alike := Switchboard.follows_start ⟨settings, .store, store, ∅⟩ rfl
  have balanced := Switchboard.accounted_start (e := ⟨settings, .store, store, ∅⟩) rfl filled.numbered
  obtain ⟨outcomes, follows⟩ := alike.operateAll ops
  obtain ⟨own, accounted⟩ := balanced.operateAll ops
  have orderly := follows.orderly accounted
  rw [Engine.operateAll_settings] at orderly
  exact ⟨outcomes, follows, orderly⟩

/-- One peer breaks its conversation off and another waits. -/
theorem conversations_hold_snapshots_of_two :
    let e : Engine := ⟨.standard, .store, .inMemory, ∅⟩
    let near : NodeId := ⟨.fill 32 1⟩
    let far : NodeId := ⟨.fill 32 2⟩
    let ops : List Operation :=
      [.generate 0 near, .process 0 far (.first [] []), .process 1 near (.third [] [])]
    let w := ((Switchboard.start e).operateAll ops).2
    (w.slots far).snapshot?.isSome = true ∧ (w.slots near).snapshot?.isSome = false ∧
      ((w.line far).generate 30000).1 = .ok none ∧ ((w.line far).generate 30001).1 ≠ .ok none ∧
      ((w.line near).generate 1).1 ≠ .ok none := by
  intro e near far ops w
  obtain ⟨-, -, orderly⟩ := conversations_hold_snapshots .inMemory (rfl : Engine.start _ _ _ = .ok e) ops
  have waiting : (w.slots far).Busy := .inr (.inr (by decide +kernel))
  have since : (w.slots far).started? = some 0 := by decide +kernel
  have ended : (w.slots near).state = .resting := by decide +kernel
  have idle : ¬ (w.slots near).Busy := by simp [Slot.Busy, ended]
  refine ⟨(orderly.snapshot far).mpr waiting, ?_, ?_, ?_, ?_⟩
  · exact Bool.eq_false_of_not_eq_true fun kept => idle ((orderly.snapshot near).mp kept)
  · exact (orderly.silent 30000 far).mpr ⟨waiting, 0, since, by decide⟩
  · intro silent
    obtain ⟨-, started, began, timely⟩ := (orderly.silent 30001 far).mp silent
    rw [since] at began
    obtain rfl := Option.some.inj began
    exact absurd timely (by decide)
  · exact fun silent => idle ((orderly.silent 1 near).mp silent).1

end HashLog
