import HashLog.Proofs.Exchange.Reachable
/-!
Exchanges that run to their end. Two engines hand the four messages to each other, and either may
write to its log between the steps. `exchange_runs` says that nothing can go wrong as long as neither
conversation grows too old, and what every message and either log then holds.
-/
namespace HashLog

/-- Writes batches one after the other. -/
def Engine.writeAll (e : Engine) (batches : List (List Record)) : Engine :=
  batches.foldl (fun e batch => (e.write batch).2) e

/-- When the initiator starts, and when each of the four messages is processed. -/
structure Times where
  start : Nat
  first : Nat
  second : Nat
  third : Nat
  fourth : Nat

/-- No conversation grows too old while the exchange lasts. -/
structure Times.Prompt (t : Times) (initiator receiver : Settings) : Prop where
  second : t.second ≤ t.start + initiator.timeout
  third : t.third ≤ t.first + receiver.timeout
  fourth : t.fourth ≤ t.start + initiator.timeout

/-- What either side writes while each message is on its way. -/
structure Meanwhile where
  receiverFirst : List (List Record)
  initiatorSecond : List (List Record)
  receiverThird : List (List Record)
  initiatorFourth : List (List Record)
  receiverFourth : List (List Record)

namespace Meanwhile

/-- No side writes anything. -/
def nothing : Meanwhile := ⟨[], [], [], [], []⟩

/-- What the initiator writes. -/
def initiator (w : Meanwhile) : List Record := w.initiatorSecond.flatten ++ w.initiatorFourth.flatten

/-- What the receiver writes once its snapshot is taken. -/
def receiver (w : Meanwhile) : List Record := w.receiverThird.flatten ++ w.receiverFourth.flatten

/-- All writes are of records of the set. -/
structure DrawnFrom (w : Meanwhile) (records : Set Record) : Prop where
  receiverFirst : ∀ r ∈ w.receiverFirst.flatten, r ∈ records
  initiator : ∀ r ∈ w.initiator, r ∈ records
  receiver : ∀ r ∈ w.receiver, r ∈ records

theorem drawn_nothing {records : Set Record} : nothing.DrawnFrom records :=
  ⟨by simp [nothing], by simp [nothing, Meanwhile.initiator], by simp [nothing, Meanwhile.receiver]⟩

end Meanwhile

/-- The four messages of an exchange and the engines at its end. -/
structure Exchange where
  first : Message
  second : Message
  third : Message
  fourth : Message
  initiator : Engine
  receiver : Engine

namespace Exchange

/-- The exchange is what comes of the initiator starting a conversation. -/
def Runs (x : Exchange) (aName bName : NodeId) (t : Times) (w : Meanwhile) (a b : Engine) : Prop :=
  ∃ a₁ b₁ a₂ b₂,
    a.generate t.start bName = (.ok (some x.first), a₁) ∧
    (b.writeAll w.receiverFirst).process t.first aName x.first = (.ok (.reply x.second), b₁) ∧
    (a₁.writeAll w.initiatorSecond).process t.second bName x.second = (.ok (.reply x.third), a₂) ∧
    (b₁.writeAll w.receiverThird).process t.third aName x.third = (.ok (.reply x.fourth), b₂) ∧
    (a₂.writeAll w.initiatorFourth).process t.fourth bName x.fourth = (.ok .finished, x.initiator) ∧
    b₂.writeAll w.receiverFourth = x.receiver

/-- There is one outcome only. -/
theorem Runs.unique {x y : Exchange} {aName bName : NodeId} {t : Times} {w : Meanwhile} {a b : Engine}
    (first : x.Runs aName bName t w a b) (second : y.Runs aName bName t w a b) : x = y := by
  obtain ⟨a₁, b₁, a₂, b₂, opened, answered, asked, fulfilled, finished, written⟩ := first
  obtain ⟨a₁', b₁', a₂', b₂', opened', answered', asked', fulfilled', finished', written'⟩ := second
  obtain ⟨firstSame, rfl⟩ := Prod.mk.inj (opened.symm.trans opened')
  have firstSame : x.first = y.first := by simpa using firstSame
  obtain ⟨secondSame, rfl⟩ := Prod.mk.inj (answered.symm.trans (firstSame ▸ answered'))
  have secondSame : x.second = y.second := by simpa using secondSame
  obtain ⟨thirdSame, rfl⟩ := Prod.mk.inj (asked.symm.trans (secondSame ▸ asked'))
  have thirdSame : x.third = y.third := by simpa using thirdSame
  obtain ⟨fourthSame, rfl⟩ := Prod.mk.inj (fulfilled.symm.trans (thirdSame ▸ fulfilled'))
  have fourthSame : x.fourth = y.fourth := by simpa using fourthSame
  obtain ⟨-, initiatorSame⟩ := Prod.mk.inj (finished.symm.trans (fourthSame ▸ finished'))
  have receiverSame := written.symm.trans written'
  cases x
  cases y
  simp_all

/-- What the messages of an exchange between logs hold, `near` being the initiator's and `far` the
receiver's when it took its snapshot. -/
structure Between (x : Exchange) (records : Set Record) (initiator receiver : Settings)
    (near far : List Record) : Prop where
  opening : x.first.records = []
  first : FrontierOf records (hashesIn near).toFinset x.first.begins x.first.ends
  second : ∃ view plan, x.second.Answers records receiver .second (hashesIn far).toFinset view
    (view.planFirst x.first) plan
  frontier : FrontierOf records (hashesIn far).toFinset x.second.begins x.second.ends
  third : ∃ view plan, x.third.Answers records initiator .third
    (hashesIn (addRecords near x.second.records)).toFinset view
    (view.planSecond (Engine.hashesOf x.second.records) x.second) plan
  fourth : ∃ view plan, x.fourth.Answers records receiver .fourth
    (hashesIn (addRecords far x.third.records)).toFinset view
    (view.planThird (Engine.hashesOf x.third.records) x.third) plan

end Exchange

namespace Engine

variable {records : Set Record} {a b e : Engine} {commits ca cb : Commits} {peer : NodeId}

theorem Sound.writeAll (consistent : Consistent records) {batches : List (List Record)}
    (sound : e.Sound records commits) (drawn : ∀ r ∈ batches.flatten, r ∈ records) :
    ∃ more, e.Grows records commits (e.writeAll batches) more ∧
      more.records = addRecords commits.records batches.flatten := by
  induction batches generalizing e commits with
  | nil => exact ⟨commits, .refl sound, rfl⟩
  | cons batch rest ih =>
    obtain ⟨middle, grows, added⟩ := sound.write consistent
      fun r member => drawn r (List.mem_append_left _ member)
    obtain ⟨more, later, all⟩ := ih grows.sound fun r member => drawn r (List.mem_append_right _ member)
    refine ⟨more, grows.trans later, ?_⟩
    rw [all, added, List.flatten_cons, addRecords, addRecords, ← List.foldl_append]
    rfl

theorem conversation_writeAll (batches : List (List Record)) :
    (e.writeAll batches).conversation peer = e.conversation peer := by
  induction batches generalizing e with
  | nil => rfl
  | cons batch rest ih => exact ih.trans conversation_write

/-- A conversation that began at a known time is not too old before its timeout. -/
private theorem timely_of_le {c : Conversation} {now started limit : Nat}
    (state : e.conversation peer = c) (began : c.started? = some started)
    (settings : e.settings.timeout = limit) (prompt : now ≤ started + limit) : e.Timely now peer := by
  rw [Timely, state, Conversation.isExpired, began, settings]
  exact decide_eq_false (Nat.not_lt.mpr prompt)

theorem Ready.writeAll {batches : List (List Record)} {now : Nat} (ready : e.Ready now peer)
    (settings : (e.writeAll batches).settings = e.settings) : (e.writeAll batches).Ready now peer := by
  unfold Ready peerState at ready ⊢
  rwa [conversation_writeAll, settings]

/-- An exchange between engines that are ready for each other runs to its end, and says what it is
meant to say. -/
theorem exchange_runs (consistent : Consistent records) {aName bName : NodeId} {t : Times}
    {w : Meanwhile} (aSound : a.Sound records ca) (bSound : b.Sound records cb)
    (aReady : a.Ready t.start bName) (bReady : b.Ready t.first aName)
    (prompt : t.Prompt a.settings b.settings) (drawn : w.DrawnFrom records) :
    ∃ (x : Exchange) (ca' cb' : Commits), x.Runs aName bName t w a b ∧
      x.Between records a.settings b.settings ca.records
        (addRecords cb.records w.receiverFirst.flatten) ∧
      a.Grows records ca x.initiator ca' ∧ b.Grows records cb x.receiver cb' ∧
      (∀ hash, hash ∈ hashesIn ca'.records ↔ hash ∈ hashesIn ca.records ∨
        hash ∈ hashesIn x.second.records ∨ hash ∈ hashesIn x.fourth.records ∨
        hash ∈ hashesIn w.initiator) ∧
      (∀ hash, hash ∈ hashesIn cb'.records ↔ hash ∈ hashesIn cb.records ∨
        hash ∈ hashesIn w.receiverFirst.flatten ∨ hash ∈ hashesIn x.third.records ∨
        hash ∈ hashesIn w.receiver) ∧
      x.initiator.conversation bName = .resting ∧ x.receiver.conversation aName = .thirdReceived := by
  -- the initiator starts, the receiver answers
  obtain ⟨m₁, a₁, s₁, opened, carries₁, frontier₁, aGrows₁, aState₁, covers₁⟩ :=
    generate_spec aSound consistent aReady
  obtain ⟨cb₀, bGrows₀, bAdded₀⟩ := bSound.writeAll consistent drawn.receiverFirst
  obtain ⟨view₂, plan₂, m₂, b₁, s₂, answered, -, answers₂, frontier₂, bGrows₁, bState₁, covers₂⟩ :=
    process_first bGrows₀.sound consistent (bReady.writeAll bGrows₀.settings)
      carries₁.valid carries₁.phase frontier₁
  -- the initiator asks, the receiver fulfils
  obtain ⟨ca₁, aGrows₂, aAdded₂⟩ := aGrows₁.sound.writeAll consistent
    fun r member => drawn.initiator r (List.mem_append_left _ member)
  have aGrown₂ := aGrows₁.trans aGrows₂
  have aState₂ := (conversation_writeAll w.initiatorSecond).trans aState₁
  obtain ⟨view₃, plan₃, m₃, a₂, s₃, ca₂, asked, -, answers₃, aGrows₃, aAdded₃, aState₃⟩ :=
    process_second aGrown₂.sound consistent
      (timely_of_le aState₂ rfl (congrArg Settings.timeout aGrown₂.settings) prompt.second) aState₂
      (covers₁.later aGrows₂) answers₂.carries.valid answers₂.carries.phase
      answers₂.carries.drawn frontier₂
  have bGrown₁ := bGrows₀.trans bGrows₁
  obtain ⟨cb₁, bGrows₂, bAdded₂⟩ := bGrown₁.sound.writeAll consistent
    fun r member => drawn.receiver r (List.mem_append_left _ member)
  have bGrown₂ := bGrown₁.trans bGrows₂
  have bState₂ := (conversation_writeAll w.receiverThird).trans bState₁
  obtain ⟨view₄, plan₄, m₄, b₂, cb₂, fulfilled, -, answers₄, bGrows₃, bAdded₃, bState₃⟩ :=
    process_third bGrown₂.sound consistent
      (timely_of_le bState₂ rfl (congrArg Settings.timeout bGrown₂.settings) prompt.third) bState₂
      (covers₂.later bGrows₂) answers₃.carries.valid answers₃.carries.phase
      answers₃.carries.drawn
  -- the initiator takes what it asked for
  have aGrown₃ := aGrown₂.trans aGrows₃
  obtain ⟨ca₃, aGrows₄, aAdded₄⟩ := aGrown₃.sound.writeAll consistent
    fun r member => drawn.initiator r (List.mem_append_right _ member)
  have aGrown₄ := aGrown₃.trans aGrows₄
  have aState₄ := (conversation_writeAll w.initiatorFourth).trans aState₃
  obtain ⟨a₃, ca₄, finished, aGrows₅, aAdded₅, aState₅⟩ := process_fourth aGrown₄.sound consistent
    (timely_of_le aState₄ rfl (congrArg Settings.timeout aGrown₄.settings) prompt.fourth) aState₄
    answers₄.carries.valid answers₄.carries.phase answers₄.carries.drawn
  have bGrown₃ := bGrown₂.trans bGrows₃
  obtain ⟨cb₃, bGrows₄, bAdded₄⟩ := bGrown₃.sound.writeAll consistent
    fun r member => drawn.receiver r (List.mem_append_right _ member)
  rw [bGrows₀.settings, bAdded₀] at answers₂
  rw [bAdded₀] at frontier₂
  rw [aGrown₂.settings] at answers₃
  rw [bGrown₂.settings, bAdded₀] at answers₄
  refine ⟨⟨m₁, m₂, m₃, m₄, a₃, b₂.writeAll w.receiverFourth⟩, ca₄, cb₃,
    ⟨a₁, b₁, a₂, b₂, opened, answered, asked, fulfilled, finished, rfl⟩,
    ⟨List.map_eq_nil_iff.mp (carries₁.sent.trans List.take_nil), frontier₁, ⟨view₂, plan₂, answers₂⟩, frontier₂,
      ⟨view₃, plan₃, answers₃⟩, ⟨view₄, plan₄, answers₄⟩⟩,
    aGrown₄.trans aGrows₅, bGrown₃.trans bGrows₄, ?_, ?_, aState₅,
    (conversation_writeAll w.receiverFourth).trans bState₃⟩
  · intro hash
    simp only [aAdded₅, aAdded₄, aAdded₃, aAdded₂, hashesIn_addRecords, Meanwhile.initiator,
      hashesIn_append, List.mem_append]
    grind only
  · intro hash
    simp only [bAdded₄, bAdded₃, bAdded₂, bAdded₀, hashesIn_addRecords, Meanwhile.receiver,
      hashesIn_append, List.mem_append]
    grind only

end Engine

end HashLog
