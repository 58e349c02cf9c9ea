import HashLog.Proofs.Exchange.Determined
import HashLog.Proofs.Exchange.Reachable
/-!
Engines over the same records tell the same, whatever graph they take their snapshots of. `Twins` says
that two engines hold the same commits and that every conversation of one has its like in the other,
over a snapshot that shows the same links; every operation answers alike on both and keeps them twins
(`Twins.operate`), cyclic links and malformed messages included. What it takes is that the store keeps
the records that it is given, since a graph in memory takes up all of them.
-/
namespace HashLog

/-! ## Operations -/

/-- What is asked of an engine. -/
inductive Operation where
  | generate (now : Nat) (peer : NodeId)
  | process (now : Nat) (peer : NodeId) (m : Message)
  | write (batch : List Record)

/-- What an operation returns. -/
inductive Outcome where
  | generated (result : Except ExchangeError (Option Message))
  | processed (result : Except ExchangeError Step)
  | written (summary : WriteSummary)
  deriving DecidableEq

/-- The records that an operation hands to an engine. -/
def Operation.records : Operation → List Record
  | generate _ _ => []
  | process _ _ m => m.records
  | write batch => batch

namespace Engine

def operate (e : Engine) : Operation → Outcome × Engine
  | .generate now peer => (e.generate now peer).map .generated id
  | .process now peer m => (e.process now peer m).map .processed id
  | .write batch => (e.write batch).map .written id

/-- Operations one after the other, with what each of them returns. -/
def operateAll : Engine → List Operation → List Outcome × Engine
  | e, [] => ([], e)
  | e, op :: rest =>
    let (outcome, e) := e.operate op
    let (outcomes, e) := e.operateAll rest
    (outcome :: outcomes, e)

/-- The engine writes the records that the operation hands to it: those of a message only if it is
well formed, fits the conversation and passes the checks. -/
def Admits (e : Engine) : Operation → Prop
  | .process now peer m => m.validate = .ok () ∧ Fits ((e.expire now peer).peerState peer) m.phase ∧
      e.settings.checkRecords m.records = .ok ()
  | .generate _ _ | .write _ => True

/-- The store keeps each record that is written in the operation or knows its hash already. -/
def Takes (e : Engine) (op : Operation) : Prop := e.Admits op → e.store.TakesAll op.records

/-- The store keeps all that is written in operations one after the other. -/
def TakesThrough : Engine → List Operation → Prop
  | _, [] => True
  | e, op :: rest => e.Takes op ∧ (e.operate op).2.TakesThrough rest

end Engine

/-! ## Stores of one medium -/

namespace Store

variable {s s' : Store} {commits more : Commits} {batch : List Record}

private theorem insert_congr (same : s.medium = s'.medium) (record : Record) :
    (s.insert record).1 = (s'.insert record).1 ∧
      (s.insert record).2.medium = (s'.insert record).2.medium := by
  unfold insert
  rw [same]
  cases s'.medium <;> exact ⟨rfl, rfl⟩

theorem write_congr (same : s.medium = s'.medium) (batch : List Record) :
    (s.write batch).1 = (s'.write batch).1 ∧
      (s.write batch).2.medium = (s'.write batch).2.medium := by
  unfold write
  generalize WriteSummary.zero = summary
  induction batch generalizing s s' summary with
  | nil => exact ⟨rfl, same⟩
  | cons record rest ih =>
    obtain ⟨new, kept⟩ := insert_congr same record
    simp only [List.foldl_cons, new]
    exact ih kept _

theorem read_congr (same : s.medium = s'.medium) (hashes : List Hash) : s.read hashes = s'.read hashes := by
  rw [read, read, same]

theorem log_congr (same : s.medium = s'.medium) : s.log = s'.log := by
  rw [log, log, readAll, readAll, same]

theorem takesAll_congr (same : s.medium = s'.medium) (taken : s.TakesAll batch) : s'.TakesAll batch := by
  induction batch generalizing s s' with
  | nil => trivial
  | cons record rest ih =>
    refine ⟨?_, ih (insert_congr same record).2 taken.2⟩
    have takes := taken.1
    rwa [Takes, same, log_congr same] at takes

theorem Later.congr {after after' : Store} (later : s.Later commits after more)
    (before : s.medium = s'.medium) (same : after.medium = after'.medium) :
    s'.Later commits after' more := by
  obtain ⟨holds, durable, last, grown⟩ := later
  rw [before] at durable last grown
  rw [same] at durable last
  exact ⟨by rwa [Store.Holds, ← same], durable, last, grown⟩

end Store

/-! ## Twins -/

/-- Snapshots of two engines that show the same links. -/
def Snapshot.Alike (a b : Engine) (commits : Commits) (s t : Snapshot) : Prop :=
  ∃ links, s.Frozen a.store commits links ∧ t.Frozen b.store commits links

/-- Conversations in the same state, begun at the same time over like snapshots. -/
inductive Conversation.Alike (a b : Engine) (commits : Commits) : Conversation → Conversation → Prop where
  | resting : Conversation.Alike a b commits .resting .resting
  | thirdReceived : Conversation.Alike a b commits .thirdReceived .thirdReceived
  | firstSent {started : Nat} {s t : Snapshot} (alike : s.Alike a b commits t) :
      Conversation.Alike a b commits (.firstSent started s) (.firstSent started t)
  | thirdSent {started : Nat} {s t : Snapshot} {received : HashSet} (alike : s.Alike a b commits t) :
      Conversation.Alike a b commits (.thirdSent started s received) (.thirdSent started t received)
  | firstReceived {started : Nat} {s t : Snapshot} (alike : s.Alike a b commits t) :
      Conversation.Alike a b commits (.firstReceived started s) (.firstReceived started t)

/-- An engine on a graph in memory and one on its store, of the same settings and records and with
like conversations. -/
structure Engine.Twins (a b : Engine) (commits : Commits) : Prop where
  mirror : a.backend.kind = .mirror
  plain : b.backend.kind = .store
  settings : a.settings = b.settings
  medium : a.store.medium = b.store.medium
  left : a.Holds commits
  right : b.Holds commits
  conversations : ∀ peer, (a.conversation peer).Alike a b commits (b.conversation peer)

/-- Later states of twins that are twins. -/
structure Engine.Twins.Grow (a b : Engine) (commits : Commits) (a' b' : Engine) (more : Commits) :
    Prop where
  twins : a'.Twins b' more
  left : a.store.Later commits a'.store more
  right : b.store.Later commits b'.store more

/-- The same result on twins that are twins afterwards. -/
def Engine.Agree {α : Type} (a b : Engine) (commits : Commits) (x y : α × Engine) : Prop :=
  x.1 = y.1 ∧ ∃ more, Engine.Twins.Grow a b commits x.2 y.2 more

variable {a b a' b' : Engine} {commits more : Commits} {s t : Snapshot} {c d : Conversation}
  {peer : NodeId} {now started : Nat} {batch : List Record} {m : Message} {received : HashSet}
  {hashes : List Hash}

namespace Snapshot.Alike

theorem later (alike : s.Alike a b commits t) (left : a.store.Later commits a'.store more)
    (right : b.store.Later commits b'.store more) : s.Alike a' b' more t :=
  alike.imp fun _ frozen => ⟨frozen.1.later left, frozen.2.later right⟩

/-- Like snapshots carry the same frontier. -/
theorem frontier (alike : s.Alike a b commits t) : s.frontier.beginList = t.frontier.beginList ∧
    s.frontier.endList = t.frontier.endList := by
  obtain ⟨links, left, right⟩ := alike
  exact ⟨left.frontier.beginList_eq right.frontier, left.frontier.endList_eq right.frontier⟩

theorem registerAll (alike : s.Alike a b commits t) (left : a.Holds commits) (right : b.Holds commits)
    (nonNull : ∀ r ∈ batch, r.hash ≠ Hash.null) :
    (s.registerAll a.store batch).Alike a b commits (t.registerAll b.store batch) :=
  alike.elim fun _ frozen => ⟨_, frozen.1.registerAll left.store nonNull,
    frozen.2.registerAll right.store nonNull⟩

end Snapshot.Alike

namespace Conversation.Alike

theorem later (alike : c.Alike a b commits d) (left : a.store.Later commits a'.store more)
    (right : b.store.Later commits b'.store more) : c.Alike a' b' more d := by
  cases alike with
  | resting => exact .resting
  | thirdReceived => exact .thirdReceived
  | firstSent alike => exact .firstSent (alike.later left right)
  | thirdSent alike => exact .thirdSent (alike.later left right)
  | firstReceived alike => exact .firstReceived (alike.later left right)

theorem state_eq (alike : c.Alike a b commits d) : c.state = d.state := by
  cases alike <;> rfl

theorem received_eq (alike : c.Alike a b commits d) : c.received = d.received := by
  cases alike <;> rfl

theorem isExpired_eq (alike : c.Alike a b commits d) (timeout : Nat) :
    c.isExpired now timeout = d.isExpired now timeout := by
  cases alike <;> rfl

end Conversation.Alike

namespace Engine

namespace Twins

theorem Grow.refl (twins : a.Twins b commits) : Grow a b commits a b commits :=
  ⟨twins, .refl twins.left.store, .refl twins.right.store⟩

theorem Grow.trans {a'' b'' : Engine} {most : Commits} (first : Grow a b commits a' b' more)
    (second : Grow a' b' more a'' b'' most) : Grow a b commits a'' b'' most :=
  ⟨second.twins, first.left.trans second.left, first.right.trans second.right⟩

/-! ## What every operation is made of -/

theorem withRegistry (twins : a.Twins b commits) (left right : SnapshotRegistry) :
    Grow a b commits (a.withRegistry left) (b.withRegistry right) commits := by
  have leftLater := Store.Later.registry twins.left.store left
  have rightLater := Store.Later.registry twins.right.store right
  exact ⟨⟨twins.mirror, twins.plain, twins.settings, twins.medium, twins.left.withRegistry,
    twins.right.withRegistry, fun peer => (twins.conversations peer).later leftLater rightLater⟩,
    leftLater, rightLater⟩

theorem setConversation (twins : a.Twins b commits) (alike : c.Alike a b commits d) (peer : NodeId) :
    Grow a b commits (a.setConversation peer c) (b.setConversation peer d) commits := by
  have leftLater := Store.Later.refl twins.left.store
  have rightLater := Store.Later.refl twins.right.store
  refine ⟨⟨twins.mirror, twins.plain, twins.settings, twins.medium, twins.left.setConversation,
    twins.right.setConversation, ?_⟩, leftLater, rightLater⟩
  intro other
  by_cases same : other = peer
  · subst same
    rw [conversation_setConversation, conversation_setConversation]
    exact alike.later leftLater rightLater
  · rw [conversation_setConversation_of_ne same, conversation_setConversation_of_ne same]
    exact (twins.conversations other).later leftLater rightLater

/-- Snapshots of twins show the same links. -/
theorem snapshot (twins : a.Twins b commits) : ∃ s t left right,
    a.snapshot = .ok (s, a.withRegistry left) ∧ b.snapshot = .ok (t, b.withRegistry right) ∧
      s.Alike a b commits t := by
  obtain ⟨s, left, taken, frozen⟩ := twins.left.snapshot_eq
  obtain ⟨t, right, taken', frozen'⟩ := twins.right.snapshot_eq
  exact ⟨s, t, left, right, taken, taken', commits.links, frozen, frozen'⟩

theorem close (twins : a.Twins b commits) (alike : c.Alike a b commits d) (peer : NodeId) :
    Grow a b commits (a.close peer c) (b.close peer d) commits := by
  obtain ⟨left, closed⟩ := a.close_eq peer c
  obtain ⟨right, closed'⟩ := b.close_eq peer d
  rw [closed, closed']
  have released := twins.withRegistry left right
  exact released.trans (released.twins.setConversation (alike.later released.left released.right) peer)

theorem expire (twins : a.Twins b commits) (now : Nat) (peer : NodeId) :
    Grow a b commits (a.expire now peer) (b.expire now peer) commits := by
  unfold Engine.expire
  rw [(twins.conversations peer).isExpired_eq, twins.settings]
  split
  · exact twins.close .resting peer
  · exact .refl twins

theorem write (twins : a.Twins b commits) (nonNull : ∀ r ∈ batch, r.hash ≠ Hash.null)
    (taken : b.store.TakesAll batch) : (a.write batch).1 = (b.write batch).1 ∧
      ∃ more, Grow a b commits (a.write batch).2 (b.write batch).2 more := by
  obtain ⟨summary, medium⟩ := Store.write_congr twins.medium batch
  obtain ⟨more, left, leftLater, -, links⟩ :=
    twins.left.write nonNull (Store.takesAll_congr twins.medium.symm taken)
  obtain ⟨more', right, -, -, links'⟩ := twins.right.write nonNull taken
  rw [← write_store, ← write_store] at medium
  have rightLater := leftLater.congr twins.medium medium
  refine ⟨?_, more, ⟨⟨kind_write.trans twins.mirror, kind_write.trans twins.plain, ?_, medium, left,
    ⟨rightLater.holds, ?_⟩, ?_⟩, leftLater, rightLater⟩⟩
  · unfold Engine.write
    cases a.backend <;> cases b.backend <;> exact summary
  · rw [write_settings, write_settings, twins.settings]
  · intro graph version mirror
    rw [links, ← links']
    exact right.mirror graph version mirror
  · intro peer
    rw [conversation_write, conversation_write]
    exact (twins.conversations peer).later leftLater rightLater

/-! ## Answers -/

theorem readToSend_eq (twins : a.Twins b commits) (hashes : List Hash) :
    a.readToSend hashes = b.readToSend hashes := by
  rw [readToSend, readToSend, twins.settings, Store.read_congr twins.medium]

variable (twins : a.Twins b commits) (alike : s.Alike a b commits t)
include twins alike

theorem answerFirst_eq : a.answerFirst s m = b.answerFirst t m := by
  obtain ⟨links, left, right⟩ := alike
  rw [Engine.answerFirst_eq, Engine.answerFirst_eq, twins.settings,
    (left.shows twins.left.store).planFirst_eq (right.shows twins.right.store) left.proper,
    left.frontier.beginList_eq right.frontier, left.frontier.endList_eq right.frontier]
  simp only [twins.readToSend_eq]

theorem answerSecond_eq : a.answerSecond s received m = b.answerSecond t received m := by
  obtain ⟨links, left, right⟩ := alike
  rw [Engine.answerSecond_eq, Engine.answerSecond_eq, twins.settings,
    (left.shows twins.left.store).planSecond_eq (right.shows twins.right.store) left.proper]
  simp only [twins.readToSend_eq]

theorem answerThird_eq : a.answerThird s received m = b.answerThird t received m := by
  obtain ⟨links, left, right⟩ := alike
  rw [Engine.answerThird_eq, Engine.answerThird_eq, twins.settings,
    (left.shows twins.left.store).planThird_eq (right.shows twins.right.store) left.proper]
  simp only [twins.readToSend_eq]

omit alike in
theorem checkRecords_eq : a.settings.checkRecords batch = b.settings.checkRecords batch := by
  rw [twins.settings]

/-- Records are accepted by both or by neither. -/
theorem accept (nonNull : ∀ r ∈ batch, r.hash ≠ Hash.null)
    (taken : b.settings.checkRecords batch = .ok () → b.store.TakesAll batch) :
    (∃ error, a.accept s batch = .error error ∧ b.accept t batch = .error error) ∨
      ∃ s' a' t' b' more, a.accept s batch = .ok (s', a') ∧ b.accept t batch = .ok (t', b') ∧
        Grow a b commits a' b' more ∧ s'.Alike a' b' more t' := by
  unfold Engine.accept
  by_cases none : batch.isEmpty = true
  · rw [if_pos none, if_pos none]
    exact Or.inr ⟨s, a, t, b, commits, rfl, rfl, .refl twins, alike⟩
  · rw [if_neg none, if_neg none, twins.checkRecords_eq]
    cases checked : b.settings.checkRecords batch with
    | error error => exact Or.inl ⟨_, rfl, rfl⟩
    | ok passed =>
      obtain ⟨-, more, grown⟩ := twins.write nonNull (taken checked)
      exact Or.inr ⟨_, _, _, _, more, rfl, rfl, grown,
        (alike.registerAll twins.left twins.right nonNull).later grown.left grown.right⟩

end Twins

/-! ## Operations on twins -/

variable (twins : a.Twins b commits)
include twins

private theorem agree_onFirst : Agree a b commits (a.onFirst now peer m) (b.onFirst now peer m) := by
  obtain ⟨s, t, left, right, taken, taken', alike⟩ := twins.snapshot
  have opened := twins.withRegistry left right
  have alike := alike.later opened.left opened.right
  simp only [onFirst, taken, taken', opened.twins.answerFirst_eq alike]
  cases (b.withRegistry right).answerFirst t m with
  | error error =>
    obtain ⟨left', released⟩ := (a.withRegistry left).release_eq s
    obtain ⟨right', released'⟩ := (b.withRegistry right).release_eq t
    simp only [released, released']
    exact ⟨rfl, commits, opened.trans (opened.twins.withRegistry left' right')⟩
  | ok reply =>
    exact ⟨rfl, commits, opened.trans (opened.twins.setConversation (.firstReceived alike) peer)⟩

private theorem agree_onSecond (alike : s.Alike a b commits t)
    (nonNull : ∀ r ∈ m.records, r.hash ≠ Hash.null)
    (taken : b.settings.checkRecords m.records = .ok () → b.store.TakesAll m.records) :
    Agree a b commits (a.onSecond started s peer m) (b.onSecond started t peer m) := by
  unfold onSecond
  rcases twins.accept alike nonNull taken with
    ⟨error, refused, refused'⟩ | ⟨s', a', t', b', more, accepted, accepted', grown, alike'⟩
  · rw [refused, refused']
    exact ⟨rfl, commits, .refl twins⟩
  · simp only [accepted, accepted', grown.twins.answerSecond_eq alike']
    cases b'.answerSecond t' (hashesOf m.records) m with
    | error error => exact ⟨rfl, more, grown⟩
    | ok reply => exact ⟨rfl, more, grown.trans (grown.twins.setConversation (.thirdSent alike') peer)⟩

private theorem agree_onThird (alike : s.Alike a b commits t)
    (nonNull : ∀ r ∈ m.records, r.hash ≠ Hash.null)
    (taken : b.settings.checkRecords m.records = .ok () → b.store.TakesAll m.records) :
    Agree a b commits (a.onThird s peer m) (b.onThird t peer m) := by
  unfold onThird
  rcases twins.accept alike nonNull taken with
    ⟨error, refused, refused'⟩ | ⟨s', a', t', b', more, accepted, accepted', grown, alike'⟩
  · rw [refused, refused']
    exact ⟨rfl, commits, .refl twins⟩
  · simp only [accepted, accepted', grown.twins.answerThird_eq alike']
    cases b'.answerThird t' (hashesOf m.records) m with
    | error error => exact ⟨rfl, more, grown⟩
    | ok reply => exact ⟨rfl, more, grown.trans (grown.twins.close .thirdReceived peer)⟩

private theorem agree_onFourth (nonNull : ∀ r ∈ m.records, r.hash ≠ Hash.null)
    (taken : b.settings.checkRecords m.records = .ok () → b.store.TakesAll m.records) :
    Agree a b commits (a.onFourth peer m) (b.onFourth peer m) := by
  unfold onFourth
  rw [twins.checkRecords_eq]
  cases checked : b.settings.checkRecords m.records with
  | error error => exact ⟨rfl, commits, .refl twins⟩
  | ok passed =>
    dsimp only
    split
    · exact ⟨rfl, commits, twins.close .resting peer⟩
    · obtain ⟨-, more, grown⟩ := twins.write nonNull (taken checked)
      exact ⟨rfl, more, grown.trans (grown.twins.close .resting peer)⟩

private theorem agree_advance (nonNull : ∀ r ∈ m.records, r.hash ≠ Hash.null)
    (taken : m.validate = .ok () → Fits (b.peerState peer) m.phase →
      b.settings.checkRecords m.records = .ok () → b.store.TakesAll m.records) :
    Agree a b commits (a.advance now peer m) (b.advance now peer m) := by
  have alike := twins.conversations peer
  unfold peerState at taken
  unfold advance
  cases valid : m.validate with
  | error fault => exact ⟨rfl, commits, .refl twins⟩
  | ok passed =>
    replace taken := taken valid
    generalize a.conversation peer = c at alike ⊢
    generalize b.conversation peer = d at alike taken ⊢
    cases alike with
    | resting =>
      cases m.phase
      case first => exact agree_onFirst twins
      all_goals exact ⟨rfl, commits, .refl twins⟩
    | thirdReceived =>
      cases m.phase
      case first => exact agree_onFirst twins
      all_goals exact ⟨rfl, commits, .refl twins⟩
    | firstSent alike =>
      cases phase : m.phase
      case second => exact agree_onSecond twins alike nonNull (taken (by rw [phase]; trivial))
      all_goals exact ⟨rfl, commits, .refl twins⟩
    | thirdSent alike =>
      cases phase : m.phase
      case fourth => exact agree_onFourth twins nonNull (taken (by rw [phase]; trivial))
      all_goals exact ⟨rfl, commits, .refl twins⟩
    | firstReceived alike =>
      cases phase : m.phase
      case third => exact agree_onThird twins alike nonNull (taken (by rw [phase]; trivial))
      all_goals exact ⟨rfl, commits, .refl twins⟩

private theorem agree_generate :
    Agree a b commits (a.generate now peer) (b.generate now peer) := by
  have expired := twins.expire now peer
  unfold generate
  dsimp only
  rw [(expired.twins.conversations peer).state_eq]
  split
  · have reset := expired.trans (expired.twins.setConversation .resting peer)
    obtain ⟨s, t, left, right, taken, taken', alike⟩ := reset.twins.snapshot
    have opened := reset.twins.withRegistry left right
    have alike := alike.later opened.left opened.right
    simp only [taken, taken', alike.frontier]
    exact ⟨rfl, commits, (reset.trans opened).trans
      (opened.twins.setConversation (.firstSent alike) peer)⟩
  · exact ⟨rfl, commits, expired⟩

private theorem agree_process (nonNull : ∀ r ∈ m.records, r.hash ≠ Hash.null)
    (taken : b.Takes (.process now peer m)) :
    Agree a b commits (a.process now peer m) (b.process now peer m) := by
  have expired := twins.expire now peer
  obtain ⟨registry, kept⟩ := b.expire_eq now peer
  have medium : (b.expire now peer).store.medium = b.store.medium := by
    rcases kept with same | reset
    · rw [same]; rfl
    · rw [reset]; rfl
  have settings : (b.expire now peer).settings = b.settings := by
    rcases kept with same | reset
    · rw [same]; rfl
    · rw [reset]; rfl
  obtain ⟨result, more, grown⟩ := agree_advance expired.twins nonNull
    fun valid fits checked =>
      Store.takesAll_congr medium.symm (taken ⟨valid, fits, settings ▸ checked⟩)
  unfold process
  generalize (a.expire now peer).advance now peer m = x at result grown ⊢
  generalize (b.expire now peer).advance now peer m = y at result grown ⊢
  obtain ⟨r, a'⟩ := x
  obtain ⟨r', b'⟩ := y
  obtain rfl : r = r' := result
  have grown := expired.trans grown
  cases r with
  | ok step => exact ⟨rfl, more, grown⟩
  | error error => exact ⟨rfl, more, grown.trans (grown.twins.close .resting peer)⟩

/-- Every operation returns the same on twins and keeps them twins. -/
theorem Twins.operate {op : Operation} (nonNull : ∀ r ∈ op.records, r.hash ≠ Hash.null)
    (taken : b.Takes op) : Agree a b commits (a.operate op) (b.operate op) := by
  cases op with
  | generate now peer =>
    obtain ⟨same, after⟩ := agree_generate twins
    exact ⟨congrArg Outcome.generated same, after⟩
  | process now peer m =>
    obtain ⟨same, after⟩ := agree_process twins nonNull taken
    exact ⟨congrArg Outcome.processed same, after⟩
  | write batch =>
    obtain ⟨same, after⟩ := twins.write nonNull (taken trivial)
    exact ⟨congrArg Outcome.written same, after⟩

theorem Twins.operateAll {ops : List Operation}
    (nonNull : ∀ op ∈ ops, ∀ r ∈ op.records, r.hash ≠ Hash.null) (taken : b.TakesThrough ops) :
    Agree a b commits (a.operateAll ops) (b.operateAll ops) := by
  induction ops generalizing a b commits with
  | nil => exact ⟨rfl, commits, .refl twins⟩
  | cons op rest ih =>
    obtain ⟨same, more, grown⟩ := twins.operate (nonNull op List.mem_cons_self) taken.1
    obtain ⟨others, most, last⟩ :=
      ih grown.twins (fun op member => nonNull op (List.mem_cons_of_mem _ member)) taken.2
    exact ⟨by simp only [Engine.operateAll, same, others], most, grown.trans last⟩

/-- A store in memory takes everything, and one in a table whatever has a numeric accuracy. -/
theorem Twins.takesThrough {ops : List Operation}
    (nonNull : ∀ op ∈ ops, ∀ r ∈ op.records, r.hash ≠ Hash.null)
    (fit : ∀ op ∈ ops, ∀ r ∈ op.records, r.refusedBy b.store.medium.durable = false) :
    b.TakesThrough ops := by
  induction ops generalizing a b commits with
  | nil => trivial
  | cons op rest ih =>
    have taken : b.Takes op := fun _ => twins.right.store.takesAll
      (nonNull op List.mem_cons_self) fun r member refused => by
        rw [fit op List.mem_cons_self r member] at refused
        cases refused
    obtain ⟨-, more, grown⟩ := twins.operate (nonNull op List.mem_cons_self) taken
    refine ⟨taken, ih grown.twins (fun op member => nonNull op (List.mem_cons_of_mem _ member)) ?_⟩
    rw [grown.right.durable]
    exact fun op member => fit op (List.mem_cons_of_mem _ member)

end Engine

end HashLog
