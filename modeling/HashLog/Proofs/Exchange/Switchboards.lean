import HashLog.Proofs.Exchange.Writes
/-!
Engines whose conversations are kept as loose fields. A slot has a state, a snapshot, a time and a set of
hashes, each set and cleared on its own, and nothing in its type says which of them go together; a line
is the slot of one peer with the engine behind it and the list of all calls on snapshots of its store.
Main statement: a switchboard of such slots does what an engine does (`Follows.operateAll`), so the
fields of a slot are those of a conversation at every moment.
-/
namespace HashLog

/-! ## Slots and lines -/

/-- What is remembered of one peer. -/
structure Slot where
  state : PeerState
  snapshot? : Option Snapshot
  started? : Option Nat
  received : HashSet

/-- The slot of a peer that was never heard of, and of one that is given up. -/
def Slot.new : Slot := ⟨.resting, none, none, ∅⟩

/-- True if a conversation is under way and older than the timeout. -/
def Slot.isExpired (slot : Slot) (now timeout : Nat) : Bool :=
  !slot.state.isIdle &&
    match slot.started? with
    | some started => decide (started + timeout < now)
    | none => false

/-- A call on the snapshots of a store. -/
inductive SnapshotCall where
  | created (id : Nat)
  | destroyed (id : Nat)
  deriving DecidableEq

/-- The number of a snapshot that the store keeps. -/
def Snapshot.id? (s : Snapshot) : Option Nat :=
  match s.base with
  | .graph _ => none
  | .store picture _ => some picture.id

/-- The slot of one peer with the engine behind it, whose own conversations are left alone, and the
calls on snapshots so far. -/
structure Line where
  engine : Engine
  calls : List SnapshotCall
  slot : Slot

namespace Line

/-- Takes a snapshot of the log as it is. -/
def openSnapshot (l : Line) : Except StoreError (Snapshot × Line) :=
  l.engine.snapshot.map fun (s, engine) =>
    (s, { l with engine, calls := l.calls ++ s.id?.toList.map .created })

/-- Gives a snapshot back. -/
def drop (l : Line) (s : Snapshot) : Line :=
  { l with engine := l.engine.release s, calls := l.calls ++ s.id?.toList.map .destroyed }

/-- Gives back the snapshot that the slot holds, as happens when the field is overwritten. -/
def dropHeld (l : Line) : Line :=
  match l.slot.snapshot? with
  | some s => l.drop s
  | none => l

def reset (l : Line) : Line := { l.dropHeld with slot := .new }

def begin (l : Line) (state : PeerState) (now : Nat) (s : Snapshot) : Line :=
  { l.dropHeld with slot := ⟨state, some s, some now, ∅⟩ }

def expire (l : Line) (now : Nat) : Line :=
  if l.slot.isExpired now l.engine.settings.timeout then l.reset else l

def onFirst (l : Line) (now : Nat) (m : Message) : Except ExchangeError Step × Line :=
  match l.reset.openSnapshot with
  | .error error => (.error (.store error), l.reset)
  | .ok (s, l) =>
    match l.engine.answerFirst s m with
    | .error error => (.error error, l.drop s)
    | .ok reply => (.ok (.reply reply), l.begin .firstReceived now s)

/-- The snapshot is looked up twice, to register records and to answer from it. -/
def onSecond (l : Line) (m : Message) : Except ExchangeError Step × Line :=
  match l.slot.snapshot? with
  | none => (.error (.protocolState l.slot.state .second), l)
  | some s =>
    match l.engine.accept s m.records with
    | .error error => (.error error, l)
    | .ok (s, engine) =>
      let received := l.slot.received.insertMany (m.records.map Record.hash)
      let l := { l with engine, slot := { l.slot with snapshot? := some s, received } }
      match l.slot.snapshot? with
      | none => (.error (.protocolState .firstSent .second), l)
      | some s =>
        match l.engine.answerSecond s l.slot.received m with
        | .error error => (.error error, l)
        | .ok reply => (.ok (.reply reply), { l with slot := { l.slot with state := .thirdSent } })

def onThird (l : Line) (m : Message) : Except ExchangeError Step × Line :=
  match l.slot.snapshot? with
  | none => (.error (.protocolState l.slot.state .third), l)
  | some s =>
    match l.engine.accept s m.records with
    | .error error => (.error error, l)
    | .ok (s, engine) =>
      let l := { l with engine, slot := { l.slot with snapshot? := some s } }
      match l.engine.answerThird s (Engine.hashesOf m.records) m with
      | .error error => (.error error, l)
      | .ok reply =>
        (.ok (.reply reply), { l.reset with slot := { l.reset.slot with state := .thirdReceived } })

def onFourth (l : Line) (m : Message) : Except ExchangeError Step × Line :=
  match l.engine.settings.checkRecords m.records with
  | .error error => (.error (.validation error), l)
  | .ok () =>
    let engine := if m.records.isEmpty then l.engine else (l.engine.write m.records).2
    (.ok .finished, reset { l with engine })

def advance (l : Line) (now : Nat) (m : Message) : Except ExchangeError Step × Line :=
  match m.validate with
  | .error fault => (.error (.malformed fault), l)
  | .ok () =>
    match l.slot.state, m.phase with
    | .resting, .first | .thirdReceived, .first => l.onFirst now m
    | .firstSent, .second => l.onSecond m
    | .firstReceived, .third => l.onThird m
    | .thirdSent, .fourth => l.onFourth m
    | state, phase => (.error (.protocolState state phase), l)

/-- An error gives the slot up. -/
def process (l : Line) (now : Nat) (m : Message) : Except ExchangeError Step × Line :=
  match (l.expire now).advance now m with
  | (.ok step, l) => (.ok step, l)
  | (.error error, l) => (.error error, l.reset)

def generate (l : Line) (now : Nat) : Except ExchangeError (Option Message) × Line :=
  let l := l.expire now
  if l.slot.state.isIdle then
    match l.reset.openSnapshot with
    | .error error => (.error (.store error), l.reset)
    | .ok (s, l) =>
      (.ok (some (.first s.frontier.beginList s.frontier.endList)), l.begin .firstSent now s)
  else (.ok none, l)

end Line

/-! ## Switchboards -/

/-- The slots of all peers. -/
structure Switchboard where
  engine : Engine
  calls : List SnapshotCall
  slots : NodeId → Slot

namespace Switchboard

def start (e : Engine) : Switchboard := ⟨{ e with conversations := ∅ }, [], fun _ => .new⟩

def line (w : Switchboard) (peer : NodeId) : Line := ⟨w.engine, w.calls, w.slots peer⟩

/-- The switchboard after something happened on the line of a peer. -/
def put (w : Switchboard) (peer : NodeId) (l : Line) : Switchboard :=
  ⟨l.engine, l.calls, Function.update w.slots peer l.slot⟩

def operate (w : Switchboard) : Operation → Outcome × Switchboard
  | .generate now peer => ((w.line peer).generate now).map .generated (w.put peer)
  | .process now peer m => ((w.line peer).process now m).map .processed (w.put peer)
  | .write batch => (w.engine.write batch).map .written fun engine => { w with engine }

def operateAll : Switchboard → List Operation → List Outcome × Switchboard
  | w, [] => ([], w)
  | w, op :: rest =>
    let (outcome, w) := w.operate op
    let (outcomes, w) := w.operateAll rest
    (outcome :: outcomes, w)

end Switchboard

/-! ## The engine of a line -/

/-- The slot that a conversation fills. -/
def Conversation.slot (c : Conversation) : Slot := ⟨c.state, c.snapshot?, c.started?, c.received⟩

/-- Registering records leaves the frozen graph as it is. -/
@[simp] theorem Snapshot.base_registerAll (s : Snapshot) (store : Store) (batch : List Record) :
    (s.registerAll store batch).base = s.base := by
  unfold registerAll
  induction batch generalizing s with
  | nil => rfl
  | cons record rest ih =>
    have registered : (s.register store record.hash record.prev).2.base = s.base := by
      unfold register
      dsimp only
      split <;> rfl
    exact (ih _).trans registered

namespace Engine

variable {e e' : Engine} {s : Snapshot} {peer : NodeId} {batch : List Record}

theorem hashesOf_eq (batch : List Record) :
    hashesOf batch = (∅ : HashSet).insertMany (batch.map Record.hash) :=
  Std.TreeSet.ofList_eq_insertMany_empty

/-- Accepting records leaves the conversations and the frozen graph as they are. -/
theorem accept_keeps {s' : Snapshot} (accepted : e.accept s batch = .ok (s', e')) :
    s'.base = s.base ∧ ∀ peer, e'.conversation peer = e.conversation peer := by
  unfold accept at accepted
  split at accepted
  · obtain ⟨rfl, rfl⟩ := Prod.mk.inj (Except.ok.inj accepted)
    exact ⟨rfl, fun _ => rfl⟩
  · split at accepted
    · cases accepted
    · obtain ⟨rfl, rfl⟩ := Prod.mk.inj (Except.ok.inj accepted)
      exact ⟨s.base_registerAll _ _, fun _ => conversation_write⟩

/-- The engine without its conversations. -/
def bare (e : Engine) : Engine := { e with conversations := ∅ }

theorem snapshot_bare : e.bare.snapshot = e.snapshot.map fun (s, e) => (s, e.bare) := by
  unfold snapshot bare
  dsimp only
  split
  · rfl
  · cases e.store.createSnapshot <;> rfl

theorem release_bare : e.bare.release s = (e.release s).bare := by
  unfold release bare
  split <;> rfl

theorem write_bare : e.bare.write batch = ((e.write batch).1, (e.write batch).2.bare) := by
  unfold write bare
  dsimp only
  split <;> rfl

theorem accept_bare : e.bare.accept s batch = (e.accept s batch).map fun (s, e) => (s, e.bare) := by
  unfold accept
  by_cases none : batch.isEmpty = true
  · rw [if_pos none, if_pos none]
    rfl
  · rw [if_neg none, if_neg none, write_bare]
    change (match e.settings.checkRecords batch with | .error _ => _ | .ok () => _) = _
    cases e.settings.checkRecords batch <;> rfl

theorem release_congr {t : Snapshot} (same : s.base = t.base) : e.release s = e.release t := by
  rw [release, release, same]

end Engine

/-! ## Lines that follow an engine -/

theorem Conversation.isExpired_slot (c : Conversation) (now timeout : Nat) :
    c.slot.isExpired now timeout = c.isExpired now timeout := by
  cases c <;> rfl

/-- The line does what the engine does with a peer. -/
structure Line.Follows (l : Line) (e : Engine) (peer : NodeId) : Prop where
  engine : l.engine = e.bare
  slot : l.slot = (e.conversation peer).slot

/-- The line has the snapshot of the engine to give back, whatever else differs. -/
structure Line.Trails (l : Line) (e : Engine) (peer : NodeId) : Prop where
  engine : l.engine = e.bare
  base : l.slot.snapshot?.map Snapshot.base = (e.conversation peer).snapshot?.map Snapshot.base

/-- The same result, with the same conversation unless it failed. -/
structure Line.Agrees (peer : NodeId) (x : Except ExchangeError Step × Line)
    (y : Except ExchangeError Step × Engine) : Prop where
  result : x.1 = y.1
  after : x.2.Trails y.2 peer
  slot : ∀ step, y.1 = .ok step → x.2.slot = (y.2.conversation peer).slot

namespace Line

variable {l : Line} {e : Engine} {peer : NodeId} {now started : Nat} {m : Message} {s : Snapshot}
  {received : HashSet}

theorem Follows.eq (follows : l.Follows e peer) {c : Conversation} (state : e.conversation peer = c) :
    l = ⟨e.bare, l.calls, c.slot⟩ := by
  rw [← follows.engine, ← state, ← follows.slot]

theorem Follows.state (follows : l.Follows e peer) : l.slot.state = (e.conversation peer).state := by
  rw [follows.slot]
  rfl

theorem Follows.trails (follows : l.Follows e peer) : l.Trails e peer :=
  ⟨follows.engine, by rw [follows.slot]; rfl⟩

theorem follows_setConversation (e : Engine) (peer : NodeId) (c : Conversation)
    (calls : List SnapshotCall) : Follows ⟨e.bare, calls, c.slot⟩ (e.setConversation peer c) peer :=
  ⟨rfl, by rw [Engine.conversation_setConversation]⟩

private theorem Trails.failed (trails : l.Trails e peer) (error : ExchangeError) :
    Agrees peer (.error error, l) (.error error, e) :=
  ⟨rfl, trails, fun _ same => nomatch same⟩

private theorem Follows.done (follows : l.Follows e peer) (step : Step) :
    Agrees peer (.ok step, l) (.ok step, e) :=
  ⟨rfl, follows.trails, fun _ _ => follows.slot⟩

/-- A line that is given up follows the engine again. -/
theorem Trails.reset (trails : l.Trails e peer) (c : Conversation)
    (idle : c.slot = { Slot.new with state := c.state }) :
    Follows { l.reset with slot := { l.reset.slot with state := c.state } } (e.close peer c) peer := by
  refine ⟨?_, by rw [Engine.conversation_close, idle]; rfl⟩
  have base := trails.base
  change l.dropHeld.engine = _
  unfold dropHeld Engine.close
  cases held : l.slot.snapshot? with
  | none =>
    rw [held] at base
    cases kept : (e.conversation peer).snapshot? with
    | none => exact trails.engine
    | some t => rw [kept] at base; cases base
  | some s =>
    rw [held] at base
    cases kept : (e.conversation peer).snapshot? with
    | none => rw [kept] at base; cases base
    | some t =>
      rw [kept] at base
      change l.engine.release s = (e.release t).bare
      rw [trails.engine, Engine.release_congr (Option.some.inj base), Engine.release_bare]

theorem Trails.resting (trails : l.Trails e peer) : l.reset.Follows (e.close peer .resting) peer :=
  trails.reset .resting rfl

theorem Follows.expire (follows : l.Follows e peer) (now : Nat) :
    (l.expire now).Follows (e.expire now peer) peer := by
  unfold Line.expire Engine.expire
  rw [follows.slot, Conversation.isExpired_slot, follows.engine]
  change Line.Follows (if (e.conversation peer).isExpired now e.settings.timeout = true then _ else _) _ _
  split
  · exact follows.trails.resting
  · exact follows

/-- Taking a snapshot on a line that holds none. -/
private theorem openSnapshot_reset (bare : l.engine = e.bare) (held : l.slot.snapshot? = none) :
    l.reset = ⟨e.bare, l.calls, .new⟩ ∧
      l.reset.openSnapshot = e.snapshot.map fun (s, e) =>
        (s, ⟨e.bare, l.calls ++ s.id?.toList.map .created, .new⟩) := by
  have kept : l.reset = ⟨e.bare, l.calls, .new⟩ := by
    rw [Line.reset, dropHeld, held, ← bare]
  refine ⟨kept, ?_⟩
  rw [kept, Line.openSnapshot, Engine.snapshot_bare]
  cases e.snapshot <;> rfl

private theorem Follows.held (follows : l.Follows e peer) :
    l.slot.snapshot? = (e.conversation peer).snapshot? := by
  rw [follows.slot]
  rfl

private theorem agrees_onFirst (follows : l.Follows e peer)
    (idle : (e.conversation peer).snapshot? = none) :
    Agrees peer (l.onFirst now m) (e.onFirst now peer m) := by
  obtain ⟨reset, opened⟩ := openSnapshot_reset follows.engine (follows.held.trans idle)
  unfold Line.onFirst Engine.onFirst
  rw [opened, reset]
  cases taken : e.snapshot with
  | error error =>
    have trails : Trails ⟨e.bare, l.calls, .new⟩ e peer := ⟨rfl, (congrArg (Option.map _) idle).symm⟩
    exact trails.failed (.store error)
  | ok pair =>
    obtain ⟨s, e'⟩ := pair
    obtain ⟨registry, rfl⟩ := Engine.snapshot_eq_withRegistry taken
    change Agrees peer (match (e.withRegistry registry).answerFirst s m with | .error _ => _ | .ok _ => _) _
    dsimp only
    cases (e.withRegistry registry).answerFirst s m with
    | error error =>
      refine Trails.failed ⟨Engine.release_bare, ?_⟩ error
      obtain ⟨other, released⟩ := (e.withRegistry registry).release_eq s
      rw [released]
      exact (congrArg (Option.map _) idle).symm
    | ok reply => exact (follows_setConversation _ peer (.firstReceived now s) _).done (.reply reply)

private theorem agrees_onSecond (follows : l.Follows e peer)
    (state : e.conversation peer = .firstSent started s) :
    Agrees peer (l.onSecond m) (e.onSecond started s peer m) := by
  have trails := follows.trails
  rw [follows.eq state] at trails ⊢
  generalize l.calls = calls at trails ⊢
  unfold Line.onSecond Engine.onSecond
  simp only [Conversation.slot, Conversation.snapshot?]
  rw [Engine.accept_bare]
  cases accepted : e.accept s m.records with
  | error error => exact trails.failed error
  | ok pair =>
    obtain ⟨s', e'⟩ := pair
    obtain ⟨base, kept⟩ := Engine.accept_keeps accepted
    simp only [Except.map, Conversation.received, Engine.hashesOf_eq]
    change Agrees peer (match e'.answerSecond s' _ m with | .error _ => _ | .ok _ => _) _
    cases e'.answerSecond s' (Std.TreeSet.insertMany ∅ (m.records.map Record.hash)) m with
    | error error =>
      refine Trails.failed ⟨rfl, ?_⟩ error
      rw [kept, state]
      exact congrArg some base
    | ok reply =>
      exact (follows_setConversation e' peer (.thirdSent started s' _) calls).done (.reply reply)

private theorem agrees_onThird (follows : l.Follows e peer)
    (state : e.conversation peer = .firstReceived started s) :
    Agrees peer (l.onThird m) (e.onThird s peer m) := by
  have trails := follows.trails
  rw [follows.eq state] at trails ⊢
  generalize l.calls = calls at trails ⊢
  unfold Line.onThird Engine.onThird
  simp only [Conversation.slot, Conversation.snapshot?]
  rw [Engine.accept_bare]
  cases accepted : e.accept s m.records with
  | error error => exact trails.failed error
  | ok pair =>
    obtain ⟨s', e'⟩ := pair
    obtain ⟨base, kept⟩ := Engine.accept_keeps accepted
    have trails : Trails ⟨e'.bare, calls, ⟨.firstReceived, some s', some started, ∅⟩⟩ e' peer := by
      refine ⟨rfl, ?_⟩
      rw [kept, state]
      exact congrArg some base
    simp only [Except.map]
    change Agrees peer (match e'.answerThird s' _ m with | .error _ => _ | .ok _ => _) _
    cases e'.answerThird s' (Engine.hashesOf m.records) m with
    | error error => exact trails.failed error
    | ok reply => exact (trails.reset .thirdReceived rfl).done (.reply reply)

private theorem agrees_onFourth (follows : l.Follows e peer) :
    Agrees peer (l.onFourth m) (e.onFourth peer m) := by
  unfold Line.onFourth Engine.onFourth
  rw [follows.engine]
  change Agrees peer (match e.settings.checkRecords m.records with | .error _ => _ | .ok () => _) _
  cases e.settings.checkRecords m.records with
  | error error => exact follows.trails.failed (.validation error)
  | ok passed =>
    dsimp only
    have written : Follows
        { l with engine := if m.records.isEmpty then e.bare else (e.bare.write m.records).2 }
        (if m.records.isEmpty then e else (e.write m.records).2) peer := by
      split
      · exact ⟨rfl, follows.slot⟩
      · refine ⟨by rw [Engine.write_bare], ?_⟩
        rw [Engine.conversation_write]
        exact follows.slot
    exact written.trails.resting.done .finished

private theorem agrees_advance (follows : l.Follows e peer) :
    Agrees peer (l.advance now m) (e.advance now peer m) := by
  have refused := follows.trails.failed
  unfold Line.advance Engine.advance
  cases m.validate with
  | error fault => exact refused _
  | ok passed =>
    rw [follows.state]
    cases conversation : e.conversation peer with
    | resting =>
      cases m.phase
      case first => exact agrees_onFirst follows (by rw [conversation]; rfl)
      all_goals exact refused _
    | thirdReceived =>
      cases m.phase
      case first => exact agrees_onFirst follows (by rw [conversation]; rfl)
      all_goals exact refused _
    | firstSent started s =>
      cases m.phase
      case second => exact agrees_onSecond follows conversation
      all_goals exact refused _
    | thirdSent started s received =>
      cases m.phase
      case fourth => exact agrees_onFourth follows
      all_goals exact refused _
    | firstReceived started s =>
      cases m.phase
      case third => exact agrees_onThird follows conversation
      all_goals exact refused _

/-- A line processes a message as the engine does. -/
theorem Follows.process (follows : l.Follows e peer) (now : Nat) (m : Message) :
    (l.process now m).1 = (e.process now peer m).1 ∧
      (l.process now m).2.Follows (e.process now peer m).2 peer := by
  have advanced : Agrees peer ((l.expire now).advance now m) ((e.expire now peer).advance now peer m) :=
    agrees_advance (follows.expire now)
  unfold Line.process Engine.process
  generalize (l.expire now).advance now m = x at advanced
  generalize (e.expire now peer).advance now peer m = y at advanced
  obtain ⟨r, l'⟩ := x
  obtain ⟨r', e'⟩ := y
  obtain ⟨rfl, trails, slot⟩ := advanced
  cases r with
  | error error => exact ⟨rfl, Trails.resting trails⟩
  | ok step => exact ⟨rfl, trails.engine, slot step rfl⟩

theorem Follows.generate (follows : l.Follows e peer) (now : Nat) :
    (l.generate now).1 = (e.generate now peer).1 ∧
      (l.generate now).2.Follows (e.generate now peer).2 peer := by
  have follows := follows.expire now
  unfold Line.generate Engine.generate
  generalize l.expire now = l at follows ⊢
  generalize e.expire now peer = e at follows ⊢
  dsimp only
  rw [follows.state]
  split
  · rename_i idle
    have none : (e.conversation peer).snapshot? = none := by
      generalize e.conversation peer = c at idle
      cases c <;> first | rfl | cases idle
    obtain ⟨reset, opened⟩ := openSnapshot_reset (e := e.setConversation peer .resting) follows.engine
      (follows.held.trans none)
    rw [opened, reset]
    cases taken : (e.setConversation peer .resting).snapshot with
    | error error => exact ⟨rfl, follows_setConversation e peer .resting _⟩
    | ok pair => exact ⟨rfl, follows_setConversation pair.2 peer (.firstSent now pair.1) _⟩
  · exact ⟨rfl, follows⟩

end Line

/-! ## Switchboards that follow an engine -/

/-- The switchboard does what the engine does with all peers. -/
structure Switchboard.Follows (w : Switchboard) (e : Engine) : Prop where
  engine : w.engine = e.bare
  slots : ∀ peer, w.slots peer = (e.conversation peer).slot

namespace Switchboard

variable {w : Switchboard} {e e' : Engine} {l : Line} {peer : NodeId}

theorem Follows.line (follows : w.Follows e) (peer : NodeId) : (w.line peer).Follows e peer :=
  ⟨follows.engine, follows.slots peer⟩

private theorem Follows.put (follows : w.Follows e) (after : l.Follows e' peer)
    (spares : ∀ other, other ≠ peer → e'.conversation other = e.conversation other) :
    (w.put peer l).Follows e' := by
  refine ⟨after.engine, fun other => ?_⟩
  by_cases same : other = peer
  · subst same
    exact (Function.update_self _ _ _).trans after.slot
  · rw [spares other same, ← follows.slots other]
    exact Function.update_of_ne same _ _

theorem follows_start (e : Engine) (idle : e.conversations = ∅) : (start e).Follows e := by
  refine ⟨rfl, fun peer => ?_⟩
  rw [Engine.conversation, idle, Std.TreeMap.getD_emptyc]
  rfl

/-- Every operation returns the same on a switchboard that follows an engine, which it goes on to do. -/
theorem Follows.operate (follows : w.Follows e) (op : Operation) :
    (w.operate op).1 = (e.operate op).1 ∧ (w.operate op).2.Follows (e.operate op).2 := by
  cases op with
  | generate now peer =>
    obtain ⟨result, after⟩ := (follows.line peer).generate now
    exact ⟨congrArg Outcome.generated result, follows.put after (e.stays_generate now peer).spares⟩
  | process now peer m =>
    obtain ⟨result, after⟩ := (follows.line peer).process now m
    exact ⟨congrArg Outcome.processed result, follows.put after (e.process_receives now peer m).keeps.2⟩
  | write batch =>
    have written : w.operate (.write batch) =
        (.written (e.write batch).1, { w with engine := (e.write batch).2.bare }) := by
      rw [Switchboard.operate, follows.engine, Engine.write_bare]
      rfl
    rw [written]
    refine ⟨rfl, rfl, fun peer => ?_⟩
    exact (follows.slots peer).trans (congrArg Conversation.slot Engine.conversation_write.symm)

theorem Follows.operateAll (follows : w.Follows e) (ops : List Operation) :
    (w.operateAll ops).1 = (e.operateAll ops).1 ∧
      (w.operateAll ops).2.Follows (e.operateAll ops).2 := by
  induction ops generalizing w e with
  | nil => exact ⟨rfl, follows⟩
  | cons op rest ih =>
    obtain ⟨outcome, after⟩ := follows.operate op
    obtain ⟨outcomes, last⟩ := ih after
    exact ⟨by simp only [Switchboard.operateAll, Engine.operateAll, outcome, outcomes], last⟩

end Switchboard

end HashLog
