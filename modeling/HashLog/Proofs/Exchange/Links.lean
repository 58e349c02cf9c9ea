import HashLog.Proofs.Exchange.Turns
/-!
Two replicas on a link with one queue in each direction. Either may start a conversation, take the
next message of its queue or write to its log, at any time and in any order. `Talk` relates what both
sides wait for to what is under way in both queues; every step keeps it (`Link.Conducts.start`,
`deliver`, `write`), so a message always goes on with the conversation that it belongs to or meets a
first message that crossed it.
-/
namespace HashLog

/-! ## What is under way

A side is described by the turns of the conversation that it waits in, none if it does not wait, and
a message by the turns that led up to it. -/

section Talk

variable {Turns : Type*}

/-- A side that is not waiting, or has just started a conversation: `queue` ends with its message. -/
inductive Fresh : List Turns → List (List Turns) → Prop where
  | quiet : Fresh [] []
  | opened (t : Turns) : Fresh [t] [[t]]

/-- The last message of a conversation for a side that waits in it: a first message that crossed its
own, or the answer to its second one. -/
inductive Closes : List Turns → List Turns → Prop where
  | crossed (t u : Turns) : Closes [t] [u]
  | fulfilled (t u v w : Turns) : Closes [t, u, v] [t, u, v, w]

/-- What one side waits for and is sent, and the same for the other side. -/
inductive Shape : List Turns → List (List Turns) → List Turns → List (List Turns) → Prop where
  | listening {far : List Turns} {queue : List (List Turns)} (fresh : Fresh far queue) :
      Shape [] queue far []
  | closing {near last far : List Turns} {queue : List (List Turns)} (closes : Closes near last)
      (fresh : Fresh far queue) : Shape near (last :: queue) far []
  | crossing (t u : Turns) : Shape [t] [[u]] [u] [[t]]
  | answered (t u : Turns) : Shape [t] [[t, u]] [t, u] []
  | asked (t u v : Turns) : Shape [t, u, v] [] [t, u] [[t, u, v]]

/-- Either side may be the one that a shape begins with. -/
def Talk (own : List Turns) (ownQueue : List (List Turns)) (far : List Turns)
    (farQueue : List (List Turns)) : Prop :=
  Shape own ownQueue far farQueue ∨ Shape far farQueue own ownQueue

variable {own far letter : List Turns} {ownQueue farQueue : List (List Turns)} {t : Turns}

theorem Talk.symm (talk : Talk own ownQueue far farQueue) : Talk far farQueue own ownQueue :=
  Or.symm talk

/-- Nobody waits when nothing is under way. -/
theorem Talk.quiet (talk : Talk own [] far []) : own = [] ∧ far = [] := by
  rcases talk with shape | shape
  · cases shape with
    | listening fresh => cases fresh; exact ⟨rfl, rfl⟩
  · cases shape with
    | listening fresh => cases fresh; exact ⟨rfl, rfl⟩

theorem Talk.start (talk : Talk [] ownQueue far farQueue) (t : Turns) :
    Talk [t] ownQueue far (farQueue ++ [[t]]) := by
  rcases talk with shape | shape
  · cases shape with
    | listening fresh =>
      cases fresh with
      | quiet => exact Or.inr (.listening (.opened t))
      | opened u => exact Or.inl (.crossing t u)
    | closing closes fresh => cases closes
  · cases shape with
    | listening fresh => cases fresh; exact Or.inr (.listening (.opened t))
    | closing closes fresh => cases fresh; exact Or.inr (.closing closes (.opened t))

/-- The message at the head of a queue goes on with what its receiver waits for, or crossed it. -/
inductive Talk.Head (ownQueue farQueue : List (List Turns)) (far : List Turns) :
    List Turns → List Turns → Prop where
  | answer (t : Turns)
      (next : ∀ u, Talk [t, u] ownQueue far (farQueue ++ [[t, u]])) : Head _ _ _ [] [t]
  | collide (t u : Turns) (next : Talk [] ownQueue far farQueue) : Head _ _ _ [t] [u]
  | ask (t u : Turns)
      (next : ∀ v, Talk [t, u, v] ownQueue far (farQueue ++ [[t, u, v]])) : Head _ _ _ [t] [t, u]
  | fulfil (t u v : Turns)
      (next : ∀ w, Talk [] ownQueue far (farQueue ++ [[t, u, v, w]])) : Head _ _ _ [t, u] [t, u, v]
  | finish (t u v w : Turns) (next : Talk [] ownQueue far farQueue) :
      Head _ _ _ [t, u, v] [t, u, v, w]

theorem Talk.deliver (talk : Talk own (letter :: ownQueue) far farQueue) :
    Talk.Head ownQueue farQueue far own letter := by
  rcases talk with shape | shape
  · cases shape with
    | listening fresh =>
      cases fresh with
      | opened t => exact .answer t fun u => Or.inr (.answered t u)
    | closing closes fresh =>
      cases closes with
      | crossed t u => exact .collide t u (Or.inl (.listening fresh))
      | fulfilled t u v w => exact .finish t u v w (Or.inl (.listening fresh))
    | crossing t u => exact .collide t u (Or.inr (.closing (.crossed u t) .quiet))
    | answered t u => exact .ask t u fun v => Or.inl (.asked t u v)
  · cases shape with
    | crossing u t => exact .collide t u (Or.inr (.closing (.crossed u t) .quiet))
    | asked t u v => exact .fulfil t u v fun w => Or.inr (.closing (.fulfilled t u v w) .quiet)

end Talk

/-! ## The link -/

/-- A message under way with the turns that led up to it. -/
structure Letter where
  message : Message
  turns : List Turn

/-- One end of a link: its engine, the turns of the conversation that it waits in and the messages
sent to it, the next one first. The turns take no part in what happens. -/
structure Station where
  engine : Engine
  turns : List Turn
  queue : List Letter

/-- Two replicas that send messages to each other. -/
structure Link where
  name : Side → NodeId
  steps : Nat
  station : Side → Station

namespace Link

/-- A link over which nothing was sent yet. -/
def join (name : Side → NodeId) (engine : Side → Engine) : Link :=
  ⟨name, 0, fun side => ⟨engine side, [], []⟩⟩

/-- The link after a step of one side that sent these messages. -/
def after (link : Link) (side : Side) (own : Station) (sent : List Letter) : Link :=
  { link with
    steps := link.steps + 1
    station := fun s =>
      if s = side then own else { link.station s with queue := (link.station s).queue ++ sent } }

/-- One side starts a conversation, unless one is under way. -/
def start (link : Link) (side : Side) (now : Nat) : Except ExchangeError (Option Message) × Link :=
  let own := link.station side
  match own.engine.generate now (link.name side.other) with
  | (.ok (some m), engine) =>
    let turns := [⟨link.steps, side, now, own.engine, m⟩]
    (.ok (some m), link.after side { own with engine, turns } [⟨m, turns⟩])
  | (result, engine) => (result, link.after side { own with engine } [])

/-- One side takes the next message sent to it, if there is one, and sends its answer. -/
def deliver (link : Link) (side : Side) (now : Nat) :
    Option (Letter × Except ExchangeError Step) × Link :=
  let own := link.station side
  match own.queue with
  | [] => (none, link)
  | letter :: queue =>
    match own.engine.process now (link.name side.other) letter.message with
    | (.ok (.reply m), engine) =>
      let turns := letter.turns ++ [⟨link.steps, side, now, own.engine, m⟩]
      let waits := if (engine.peerState (link.name side.other)).isIdle then [] else turns
      (some (letter, .ok (.reply m)), link.after side ⟨engine, waits, queue⟩ [⟨m, turns⟩])
    | (result, engine) => (some (letter, result), link.after side ⟨engine, [], queue⟩ [])

/-- One side writes to its log. -/
def write (link : Link) (side : Side) (batch : List Record) : Link :=
  let own := link.station side
  link.after side { own with engine := (own.engine.write batch).2 } []

/-- The conversation of one side is not too old to go on. -/
def Timely (link : Link) (side : Side) (now : Nat) : Prop :=
  (link.station side).engine.Timely now (link.name side.other)

/-- What a link comes to by steps of either side in any order, while no conversation grows too old
and only records of the set are written. -/
inductive Leads (records : Set Record) (first : Link) : Link → Prop where
  | refl : Leads records first first
  | start {link : Link} {side : Side} {now : Nat} (before : Leads records first link)
      (timely : link.Timely side now) : Leads records first (link.start side now).2
  | deliver {link : Link} {side : Side} {now : Nat} (before : Leads records first link)
      (timely : link.Timely side now) : Leads records first (link.deliver side now).2
  | write {link : Link} {side : Side} {batch : List Record} (before : Leads records first link)
      (drawn : ∀ r ∈ batch, r ∈ records) : Leads records first (link.write side batch)

variable {records : Set Record} {link : Link} {side : Side} {own : Station} {sent : List Letter}
  {now : Nat} {batch : List Record}

@[simp] theorem after_own : (link.after side own sent).station side = own := by
  simp [after]

@[simp] theorem after_far : (link.after side own sent).station side.other =
    { link.station side.other with queue := (link.station side.other).queue ++ sent } := by
  simp [after]

end Link

/-! ## What every step keeps -/

/-- A message that was sent to one side at the end of its thread. What the thread says of the log of
its last sender holds of the sender's log now. -/
structure Letter.Genuine (records : Set Record) (name : Side → NodeId) (side : Side) (sender : Engine)
    (letter : Letter) : Prop where
  thread : Turn.Thread records name letter.turns
  last : ∀ turn ∈ letter.turns.getLast?, turn.sent = letter.message ∧ turn.side = side.other
  stored : ∀ t u v w, letter.turns = [t, u, v, w] →
    hashSet u.log ∪ hashSet v.sent.records ⊆ hashSet sender.store.log

theorem Letter.Genuine.later {records : Set Record} {name : Side → NodeId} {side : Side}
    {sender sender' : Engine} {letter : Letter} (genuine : letter.Genuine records name side sender)
    (grown : hashSet sender.store.log ⊆ hashSet sender'.store.log) :
    letter.Genuine records name side sender' :=
  { genuine with stored := fun t u v w turns => (genuine.stored t u v w turns).trans grown }

/-- How the stations of a link and the messages under way go together. -/
structure Link.Conducts (records : Set Record) (link : Link) : Prop where
  stands : ∀ side, (link.station side).engine.Stands records (link.name side.other)
    (link.station side).turns
  last : ∀ side, ∀ turn ∈ (link.station side).turns.getLast?, turn.side = side
  genuine : ∀ side, ∀ letter ∈ (link.station side).queue,
    letter.Genuine records link.name side (link.station side.other).engine
  talk : ∀ side, Talk (link.station side).turns ((link.station side).queue.map Letter.turns)
    (link.station side.other).turns ((link.station side.other).queue.map Letter.turns)

namespace Link

variable {records : Set Record} {link : Link} {side : Side} {own : Station} {sent : List Letter}
  {now : Nat} {batch : List Record}

/-- What a step of one side has to keep. -/
private theorem Conducts.after (conducts : link.Conducts records)
    (stands : own.engine.Stands records (link.name side.other) own.turns)
    (last : ∀ turn ∈ own.turns.getLast?, turn.side = side)
    (grown : hashSet (link.station side).engine.store.log ⊆ hashSet own.engine.store.log)
    (queue : own.queue ⊆ (link.station side).queue)
    (genuine : ∀ letter ∈ sent, letter.Genuine records link.name side.other own.engine)
    (talk : Talk own.turns (own.queue.map Letter.turns) (link.station side.other).turns
      ((link.station side.other).queue.map Letter.turns ++ sent.map Letter.turns)) :
    (link.after side own sent).Conducts records := by
  rw [← List.map_append] at talk
  refine ⟨?_, ?_, ?_, ?_⟩
  · intro s
    rcases s.eq_or_eq_other side with rfl | rfl
    · rwa [after_own]
    · rw [after_far]
      exact conducts.stands side.other
  · intro s
    rcases s.eq_or_eq_other side with rfl | rfl
    · rwa [after_own]
    · rw [after_far]
      exact conducts.last side.other
  · intro s
    rcases s.eq_or_eq_other side with rfl | rfl
    · rw [after_own, after_far]
      exact fun letter member => conducts.genuine s letter (queue member)
    · rw [after_far, Side.other_other, after_own]
      intro letter member
      rcases List.mem_append.mp member with old | new
      · have before := conducts.genuine side.other letter old
        rw [Side.other_other] at before
        exact before.later grown
      · exact genuine letter new
  · intro s
    rcases s.eq_or_eq_other side with rfl | rfl
    · rw [after_own, after_far]
      exact talk
    · rw [Side.other_other, after_own, after_far]
      exact talk.symm

theorem Conducts.write (conducts : link.Conducts records) (consistent : Consistent records)
    (drawn : ∀ r ∈ batch, r ∈ records) : (link.write side batch).Conducts records := by
  obtain ⟨stands, grown⟩ := (conducts.stands side).write consistent drawn
  refine conducts.after stands (conducts.last side) grown (List.Subset.refl _) (by simp) ?_
  rw [List.map_nil, List.append_nil]
  exact conducts.talk side

/-- Starting a conversation never fails. -/
theorem Conducts.start (conducts : link.Conducts records) (consistent : Consistent records)
    (timely : link.Timely side now) :
    (link.start side now).2.Conducts records ∧ ∃ m, (link.start side now).1 = .ok m := by
  have talk := conducts.talk side
  have stands := conducts.stands side
  have last := conducts.last side
  unfold Link.start
  by_cases waiting : (link.station side).turns = []
  · rw [waiting] at talk stands
    obtain ⟨m, e, ran, opened, stands', grown⟩ := stands.opens consistent now link.steps
    simp only [ran]
    refine ⟨conducts.after stands' (by simp) grown (List.Subset.refl _) ?_ (talk.start _), _, rfl⟩
    rintro letter member
    obtain rfl := List.mem_singleton.mp member
    exact ⟨opened, by simp, by simp⟩
  · simp only [stands.busy waiting timely]
    refine ⟨conducts.after stands last (Finset.Subset.refl _) (List.Subset.refl _) (by simp) ?_, _, rfl⟩
    rw [List.map_nil, List.append_nil]
    exact talk

/-! ### Taking a message -/

section Deliver

variable {letter : Letter} {queue : List Letter} {e : Engine} {m : Message} {waits : List Turn}
  {result : Except ExchangeError Step}

/-- An answer goes out at the end of its thread, and the answerer waits for the next one or not. -/
private theorem Conducts.reply (conducts : link.Conducts records)
    (queued : (link.station side).queue = letter :: queue)
    (ran : (link.station side).engine.process now (link.name side.other) letter.message =
      (.ok (.reply m), e))
    {turns : List Turn} (turnsAre : turns = letter.turns ++
      [⟨link.steps, side, now, (link.station side).engine, m⟩])
    (stands : e.Stands records (link.name side.other) waits) (waitsAre : waits = [] ∨ waits = turns)
    (grown : hashSet (link.station side).engine.store.log ⊆ hashSet e.store.log)
    (thread : Turn.Thread records link.name turns)
    (stored : ∀ t u v w, turns = [t, u, v, w] →
      hashSet u.log ∪ hashSet v.sent.records ⊆ hashSet e.store.log)
    (talk : Talk waits (queue.map Letter.turns) (link.station side.other).turns
      ((link.station side.other).queue.map Letter.turns ++ [turns])) :
    (link.deliver side now).2.Conducts records ∧
      (link.deliver side now).1 = some (letter, .ok (.reply m)) := by
  have some : turns ≠ [] := by simp [turnsAre]
  have waitsNow : (if (e.peerState (link.name side.other)).isIdle = true then [] else turns) = waits := by
    rcases waitsAre with rfl | rfl
    · exact if_pos (stands.idle_iff.mpr rfl)
    · exact if_neg fun idle => some (stands.idle_iff.mp idle)
  have ends : ∀ turn ∈ turns.getLast?, turn.sent = m ∧ turn.side = side := by
    simp [turnsAre]
  simp only [Link.deliver, queued, ran, ← turnsAre, waitsNow, and_true]
  refine conducts.after stands ?_ grown (by simp [queued]) ?_ talk
  · intro turn last
    rcases waitsAre with rfl | rfl
    · cases last
    · exact (ends turn last).2
  · intro answer member
    obtain rfl := List.mem_singleton.mp member
    exact ⟨thread, by simpa using ends, stored⟩

/-- A message without an answer leaves its receiver in no conversation. -/
private theorem Conducts.settle (conducts : link.Conducts records)
    (queued : (link.station side).queue = letter :: queue)
    (ran : (link.station side).engine.process now (link.name side.other) letter.message = (result, e))
    (unanswered : ∀ m, result ≠ .ok (.reply m)) (stands : e.Stands records (link.name side.other) [])
    (grown : hashSet (link.station side).engine.store.log ⊆ hashSet e.store.log)
    (talk : Talk [] (queue.map Letter.turns) (link.station side.other).turns
      ((link.station side.other).queue.map Letter.turns)) :
    (link.deliver side now).2.Conducts records ∧
      link.deliver side now = (some (letter, result), link.after side ⟨e, [], queue⟩ []) := by
  have settled : link.deliver side now = (some (letter, result), link.after side ⟨e, [], queue⟩ []) := by
    simp only [Link.deliver, queued, ran]
  rw [settled]
  refine ⟨conducts.after stands (by simp) grown (by simp [queued]) (by simp) ?_, rfl⟩
  rwa [List.map_nil, List.append_nil]

end Deliver

/-- A conversation that is over, and what both ends have of it. -/
structure Concludes (records : Set Record) (link : Link) (side : Side) (t u v w : Turn) : Prop where
  thread : t.Fulfilled records link.name u v w
  started : t.side = side
  own : hashSet t.log ∪ hashSet u.sent.records ∪ hashSet w.sent.records ⊆
    hashSet (link.station side).engine.store.log
  far : hashSet u.log ∪ hashSet v.sent.records ⊆
    hashSet (link.station side.other).engine.store.log

/-- A message that is taken goes on with the conversation of its receiver, or is a first message that
met one on its way. -/
theorem Conducts.deliver (conducts : link.Conducts records) (consistent : Consistent records)
    (timely : link.Timely side now) :
    (link.deliver side now).2.Conducts records ∧
      ∀ letter result, (link.deliver side now).1 = some (letter, result) →
        (∀ error, result = .error error → error = .protocolState .firstSent .first) ∧
        (result = .ok .finished → ∃ t u v w, letter.turns = [t, u, v, w] ∧
          (link.station side).turns = [t, u, v] ∧
          (link.deliver side now).2.Concludes records side t u v w) := by
  have stands := conducts.stands side
  have last := conducts.last side
  cases queued : (link.station side).queue with
  | nil =>
    simp only [Link.deliver, queued]
    exact ⟨conducts, by simp⟩
  | cons letter queue =>
    have genuine := conducts.genuine side letter (by simp [queued])
    have head := conducts.talk side
    rw [queued, List.map_cons] at head
    replace head := head.deliver
    generalize ownIs : (link.station side).turns = own at head stands last
    generalize letterIs : letter.turns = taken at head
    have thread := genuine.thread
    have sent := genuine.last
    rw [letterIs] at thread sent
    cases head with
    | answer t next =>
      obtain ⟨message, from'⟩ := sent t rfl
      obtain ⟨m, e, ran, thread', stands', grown⟩ :=
        stands.answer consistent thread from' now link.steps
      rw [message] at ran
      obtain ⟨keeps, outcome⟩ := conducts.reply queued ran (by rw [letterIs]; rfl) stands' (Or.inr rfl)
        grown thread' (by simp) (next _)
      exact ⟨keeps, by simp [outcome]⟩
    | collide t u next =>
      obtain ⟨message, -⟩ := sent u rfl
      obtain ⟨e, ran, stands', grown⟩ := stands.collide timely thread
      rw [message] at ran
      obtain ⟨keeps, outcome⟩ := conducts.settle queued ran (by simp) stands' grown next
      exact ⟨keeps, by simp [outcome]⟩
    | ask t u next =>
      obtain ⟨message, from'⟩ := sent u rfl
      obtain ⟨m, e, ran, thread', stands', grown⟩ :=
        stands.ask consistent timely thread from' link.steps
      rw [message] at ran
      obtain ⟨keeps, outcome⟩ := conducts.reply queued ran (by rw [letterIs]; rfl) stands' (Or.inr rfl)
        grown thread' (by simp) (next _)
      exact ⟨keeps, by simp [outcome]⟩
    | fulfil t u v next =>
      obtain ⟨message, from'⟩ := sent v rfl
      obtain ⟨m, e, ran, thread', stands', grown, stored⟩ :=
        stands.fulfil consistent timely thread from' link.steps
      rw [message] at ran
      have joined : [t, u, v, ⟨link.steps, side, now, (link.station side).engine, m⟩] =
          letter.turns ++ [⟨link.steps, side, now, (link.station side).engine, m⟩] := by
        rw [letterIs]
        rfl
      obtain ⟨keeps, outcome⟩ := conducts.reply queued ran joined stands' (Or.inl rfl) grown thread'
        (by rintro _ _ _ _ ⟨⟩; exact stored) (next _)
      exact ⟨keeps, by simp [outcome]⟩
    | finish t u v w next =>
      obtain ⟨message, -⟩ := sent w rfl
      obtain ⟨e, ran, stands', grown, gathered⟩ := stands.finish consistent timely thread
      have sides : t.side = side := by
        have own := last v rfl
        rw [thread.asked.answers.side, thread.asked.answered.answers.side, Side.other_other] at own
        exact own
      rw [message] at ran
      obtain ⟨keeps, outcome⟩ := conducts.settle queued ran (by simp) stands' grown next
      refine ⟨keeps, ?_⟩
      rw [outcome]
      rintro _ _ ⟨rfl, rfl⟩
      refine ⟨by simp, fun _ => ⟨t, u, v, w, letterIs, rfl, thread, sides, ?_, ?_⟩⟩
      · rw [after_own]
        exact gathered
      · rw [after_far]
        exact genuine.stored t u v w letterIs

/-- Links start out in this way. -/
theorem Conducts.join {name : Side → NodeId} {engine : Side → Engine} (consistent : Consistent records)
    (reached : ∀ side, (engine side).Reachable records)
    (idle : ∀ side, ((engine side).peerState (name side.other)).isIdle = true) :
    (join name engine).Conducts records := by
  refine ⟨?_, ?_, ?_, fun side => Or.inl (.listening .quiet)⟩
  · intro side
    obtain ⟨commits, sound⟩ := (reached side).sound consistent
    exact ⟨commits, sound, idle side⟩
  · intro side
    simp [Link.join]
  · intro side
    simp [Link.join]

@[simp] theorem start_name : (link.start side now).2.name = link.name := by
  unfold Link.start
  dsimp only
  split <;> rfl

@[simp] theorem deliver_name : (link.deliver side now).2.name = link.name := by
  unfold Link.deliver
  dsimp only
  split
  · rfl
  · split <;> rfl

/-- What was taken was under way. -/
theorem mem_queue_of_deliver {letter : Letter} {result : Except ExchangeError Step} {next : Link}
    (delivered : link.deliver side now = (some (letter, result), next)) :
    letter ∈ (link.station side).queue := by
  unfold Link.deliver at delivered
  dsimp only at delivered
  split at delivered
  · simp at delivered
  · rename_i head queue queued
    have same : head = letter := by
      split at delivered <;> simp at delivered <;> exact delivered.1.1
    rw [queued, same]
    exact List.mem_cons_self

theorem Leads.name_eq {first : Link} (leads : first.Leads records link) : link.name = first.name := by
  induction leads with
  | refl => rfl
  | start _ _ ih => exact start_name.trans ih
  | deliver _ _ ih => exact deliver_name.trans ih
  | write _ _ ih => exact ih

theorem Leads.conducts {first : Link} (leads : first.Leads records link)
    (consistent : Consistent records) (conducts : first.Conducts records) : link.Conducts records := by
  induction leads with
  | refl => exact conducts
  | start _ timely ih => exact (ih.start consistent timely).1
  | deliver _ timely ih => exact (ih.deliver consistent timely).1
  | write _ drawn ih => exact ih.write consistent drawn

/-- Both ends of a conversation that was over without cuts have all that either snapshot showed. -/
theorem Concludes.union {t u v w : Turn} (concludes : link.Concludes records side t u v w)
    (consistent : Consistent records) (second : u.Uncut link.name t) (third : v.Uncut link.name u)
    (fourth : w.Uncut link.name v) (end' : Side) :
    hashSet t.log ∪ hashSet u.log ⊆ hashSet (link.station end').engine.store.log := by
  obtain ⟨thread, -, own, far⟩ := concludes
  have conveyed := thread.conveyed consistent second third fourth
  rw [Finset.union_subset_iff] at own far
  rw [Finset.union_subset_iff] at own
  obtain ⟨⟨shown, received⟩, gathered⟩ := own
  refine Finset.union_subset ?_ ?_
  · intro hash member
    rcases end'.eq_or_eq_other side with rfl | rfl
    · exact shown member
    · rcases conveyed.receiver (mem_hashSet.mp member) with held | sent
      · exact far.1 (mem_hashSet.mpr held)
      · exact far.2 (mem_hashSet.mpr sent)
  · intro hash member
    rcases end'.eq_or_eq_other side with rfl | rfl
    · rcases conveyed.initiator consistent (mem_hashSet.mp member) with held | sent | sent
      · exact shown (mem_hashSet.mpr held)
      · exact received (mem_hashSet.mpr sent)
      · exact gathered (mem_hashSet.mpr sent)
    · exact far.1 member

end Link

/-! ## Turns as steps of the run -/

namespace Link

variable {records : Set Record} {first link next : Link} {side : Side} {turns : List Turn}

/-- Each of these turns was a step on the way to this link: the first one started a conversation, and
each later one took the message of the turns before it. -/
def Made (records : Set Record) (first link : Link) (turns : List Turn) : Prop :=
  ∀ earlier turn, earlier ++ [turn] <+: turns → ∃ before after, first.Leads records before ∧
    after.Leads records link ∧ before.steps = turn.step ∧
    (before.station turn.side).engine = turn.engine ∧
    (earlier = [] ∧ before.start turn.side turn.now = (.ok (some turn.sent), after) ∨
      ∃ letter, letter.turns = earlier ∧
        before.deliver turn.side turn.now = (some (letter, .ok (.reply turn.sent)), after))

theorem Leads.trans {last : Link} (leads : first.Leads records link) (rest : link.Leads records last) :
    first.Leads records last := by
  induction rest with
  | refl => exact leads
  | start _ timely ih => exact ih.start timely
  | deliver _ timely ih => exact ih.deliver timely
  | write _ drawn ih => exact ih.write drawn

theorem Made.later (made : Made records first link turns) (rest : link.Leads records next) :
    Made records first next turns := fun earlier turn listed => by
  obtain ⟨before, after, led, leads, same⟩ := made earlier turn listed
  exact ⟨before, after, led, leads.trans rest, same⟩

theorem made_nil : Made records first link [] := fun _ _ listed => by simp at listed

private theorem Made.unless {ended : Prop} [Decidable ended] (made : Made records first link turns) :
    Made records first link (if ended then [] else turns) := by
  split
  · exact made_nil
  · exact made

/-- A thread grows by a step. -/
theorem Made.concat {turn : Turn} {after : Link} (made : Made records first link turns)
    (leads : first.Leads records link) (rest : after.Leads records next)
    (reached : link.Leads records next) (number : link.steps = turn.step)
    (engine : (link.station turn.side).engine = turn.engine)
    (ran : turns = [] ∧ link.start turn.side turn.now = (.ok (some turn.sent), after) ∨
      ∃ letter, letter.turns = turns ∧
        link.deliver turn.side turn.now = (some (letter, .ok (.reply turn.sent)), after)) :
    Made records first next (turns ++ [turn]) := by
  intro earlier other listed
  rcases List.prefix_concat_iff.mp listed with same | old
  · obtain ⟨before, last⟩ := List.append_inj' same rfl
    obtain rfl := List.singleton_inj.mp last
    subst before
    exact ⟨link, after, leads, rest, number, engine, ran⟩
  · exact made.later reached earlier other old

/-- What is under way and what a side waits for was made on the way. -/
structure Accounts (records : Set Record) (first link : Link) : Prop where
  waits : ∀ side, Made records first link (link.station side).turns
  queue : ∀ side, ∀ letter ∈ (link.station side).queue, Made records first link letter.turns

private theorem Accounts.after {own : Station} {sent : List Letter}
    (accounts : Accounts records first link) (leads : link.Leads records (link.after side own sent))
    (waits : Made records first (link.after side own sent) own.turns)
    (queue : own.queue ⊆ (link.station side).queue)
    (letters : ∀ letter ∈ sent, Made records first (link.after side own sent) letter.turns) :
    Accounts records first (link.after side own sent) := by
  refine ⟨?_, ?_⟩
  · intro s
    rcases s.eq_or_eq_other side with rfl | rfl
    · rwa [after_own]
    · rw [after_far]
      exact (accounts.waits side.other).later leads
  · intro s
    rcases s.eq_or_eq_other side with rfl | rfl
    · rw [after_own]
      exact fun letter member => (accounts.queue s letter (queue member)).later leads
    · rw [after_far]
      intro letter member
      rcases List.mem_append.mp member with old | new
      · exact (accounts.queue side.other letter old).later leads
      · exact letters letter new

private theorem Accounts.start {now : Nat} (accounts : Accounts records first link)
    (leads : first.Leads records link) (timely : link.Timely side now) :
    Accounts records first (link.start side now).2 := by
  have step : link.Leads records (link.start side now).2 := Leads.refl.start timely
  cases ran : link.start side now with
  | mk result after =>
    rw [ran] at step
    have started := ran
    unfold Link.start at ran
    dsimp only at ran
    split at ran
    · rename_i m engine generated
      obtain ⟨rfl, rfl⟩ := Prod.mk.inj ran
      have made : Made records first _
          ([] ++ [⟨link.steps, side, now, (link.station side).engine, m⟩]) :=
        made_nil.concat leads .refl step rfl rfl (Or.inl ⟨rfl, started⟩)
      apply accounts.after step made (List.Subset.refl _)
      intro letter member
      obtain rfl := List.mem_singleton.mp member
      exact made
    · obtain ⟨-, rfl⟩ := Prod.mk.inj ran
      exact accounts.after step ((accounts.waits side).later step) (List.Subset.refl _) (by simp)

private theorem Accounts.deliver {now : Nat} (accounts : Accounts records first link)
    (leads : first.Leads records link) (timely : link.Timely side now) :
    Accounts records first (link.deliver side now).2 := by
  have step : link.Leads records (link.deliver side now).2 := Leads.refl.deliver timely
  cases ran : link.deliver side now with
  | mk result after =>
    rw [ran] at step
    have delivered := ran
    unfold Link.deliver at ran
    dsimp only at ran
    split at ran
    · obtain ⟨-, rfl⟩ := Prod.mk.inj ran
      exact accounts
    · rename_i letter queue queued
      have rest : queue ⊆ (link.station side).queue := by simp [queued]
      split at ran
      · rename_i m engine processed
        obtain ⟨rfl, rfl⟩ := Prod.mk.inj ran
        have taken := accounts.queue side letter (by simp [queued])
        have made : Made records first _
            (letter.turns ++ [⟨link.steps, side, now, (link.station side).engine, m⟩]) :=
          taken.concat leads .refl step rfl rfl (Or.inr ⟨letter, rfl, delivered⟩)
        apply accounts.after step made.unless rest
        intro reply member
        obtain rfl := List.mem_singleton.mp member
        exact made
      · obtain ⟨-, rfl⟩ := Prod.mk.inj ran
        exact accounts.after step made_nil rest (by simp)

/-- On a link that nothing was sent over before, every turn is a step of the run. -/
theorem Leads.accounts {name : Side → NodeId} {engine : Side → Engine}
    (leads : (join name engine).Leads records link) : Accounts records (join name engine) link := by
  induction leads with
  | refl => exact ⟨fun side => made_nil, fun side letter member => by simp [join] at member⟩
  | start before timely ih => exact ih.start before timely
  | deliver before timely ih => exact ih.deliver before timely
  | @write link side batch before drawn ih =>
    have step : link.Leads records (link.write side batch) := Leads.refl.write drawn
    exact ih.after step ((ih.waits side).later step) (List.Subset.refl _) (by simp)

end Link

/-- Two replicas on a link, whatever either of them does and in whatever order the messages are taken:
when nothing is under way neither waits for anything; the one error is that of a first message that
crosses the receiver's own; and a conversation that finishes was led by its own four messages, each in
answer to the one before. If nothing was cut from it, both ends then have all that either snapshot
showed. -/
theorem link_conversations_stay_apart {records : Set Record} {name : Side → NodeId}
    {engine : Side → Engine} (consistent : Consistent records)
    (reached : ∀ side, (engine side).Reachable records)
    (idle : ∀ side, ((engine side).peerState (name side.other)).isIdle = true) {link : Link}
    (leads : (Link.join name engine).Leads records link) :
    ((∀ side, (link.station side).queue = []) →
      ∀ side, ((link.station side).engine.peerState (name side.other)).isIdle = true) ∧
    ∀ side now, link.Timely side now →
      (∃ sent, (link.start side now).1 = .ok sent) ∧
      ∀ letter result after, link.deliver side now = (some (letter, result), after) →
        (∀ error, result = .error error → error = .protocolState .firstSent .first) ∧
        (result = .ok .finished → ∃ t u v w : Turn, letter.turns = [t, u, v, w] ∧
          letter.message = w.sent ∧ (link.station side).turns = [t, u, v] ∧ t.side = side ∧
          Turn.Complete name t u v w ∧
          Link.Made records (Link.join name engine) link [t, u, v, w] ∧
          (u.Uncut name t → v.Uncut name u → w.Uncut name v →
            ∀ r, r ∈ t.log ∨ r ∈ u.log → ∀ end', r ∈ (after.station end').engine.store.log)) := by
  have named : link.name = name := leads.name_eq
  have conducts := leads.conducts consistent (.join consistent reached idle)
  have accounts := leads.accounts
  refine ⟨?_, fun side now timely => ⟨(conducts.start consistent timely).2, ?_⟩⟩
  · intro empty side
    have talk := conducts.talk side
    rw [empty, empty] at talk
    rw [← named]
    exact (conducts.stands side).idle_iff.mpr talk.quiet.1
  · intro letter result after delivered
    obtain ⟨next, outcome⟩ := conducts.deliver consistent timely
    rw [delivered] at next outcome
    obtain ⟨refused, finished⟩ := outcome letter result rfl
    refine ⟨refused, fun ended => ?_⟩
    obtain ⟨t, u, v, w, turns, waits, concludes⟩ := finished ended
    have listed : letter ∈ (link.station side).queue := Link.mem_queue_of_deliver delivered
    have letters := conducts.genuine side letter listed
    have made := accounts.queue side letter listed
    have complete := concludes.thread.complete
    have union := concludes.union consistent
    rw [turns] at made
    have kept := (leads.deliver timely).name_eq
    rw [delivered] at kept
    change after.name = name at kept
    rw [kept] at complete union
    refine ⟨t, u, v, w, turns, (letters.last w (by simp [turns])).1.symm, waits, concludes.started, complete,
      made, fun second third fourth r member end' => ?_⟩
    obtain ⟨commits, sound, -⟩ := next.stands end'
    have shown : r ∈ records ∧ r.hash ∈ hashSet t.log ∪ hashSet u.log := by
      rw [Finset.mem_union, mem_hashSet, mem_hashSet]
      have thread := concludes.thread.asked.answered
      rcases member with near | far
      · exact ⟨thread.opened.drawn r near, Or.inl (mem_hashesIn.mpr ⟨r, near, rfl⟩)⟩
      · exact ⟨thread.drawn r far, Or.inr (mem_hashesIn.mpr ⟨r, far, rfl⟩)⟩
    have held := union second third fourth end' shown.2
    rw [sound.holds.store.log_eq] at held ⊢
    exact (consistent.mem_iff sound.drawn shown.1).mpr (mem_hashSet.mp held)

namespace Sample

/-- A link between engines that hold one record each. -/
def link : Link :=
  .join (fun side => ⟨.fill 32 (if side = .left then 1 else 2)⟩)
    fun side => engine [if side = .left then trunk else twig]

/-- Both sides have started at once. -/
def crossed : Link := ((link.start .left 0).2.start .right 0).2

/-- Both first messages were refused, the left side has started again, and the last message of this
conversation is on its way. -/
def closing : Link :=
  let refused := ((crossed.deliver .left 0).2.deliver .right 0).2
  ((((refused.start .left 0).2.deliver .right 0).2.deliver .left 0).2.deliver .right 0).2

theorem timely (l : Link) (side : Side) : l.Timely side 0 := Engine.timely_zero _ _

theorem leads_crossed : Sample.link.Leads pair crossed :=
  (Link.Leads.refl.start (timely _ _)).start (timely _ _)

theorem leads_closing : Sample.link.Leads pair closing :=
  let refused := (leads_crossed.deliver (timely _ .left)).deliver (timely _ .right)
  (((refused.start (timely _ .left)).deliver (timely _ .right)).deliver (timely _ .left)).deliver (timely _ .right)

end Sample

/-- Both sides start at once, one of them is refused, and the other one's message is on its way. Once that is
refused as well, a conversation that the left side starts again goes through its four messages, and both
sides have both records. -/
theorem link_conversations_stay_apart_crossing :
    let link := (Sample.crossed.deliver .left 0).2
    (((∀ side, (link.station side).queue = []) →
      ∀ side, ((link.station side).engine.peerState (Sample.link.name side.other)).isIdle = true) ∧
    ∀ side now, link.Timely side now →
      (∃ sent, (link.start side now).1 = .ok sent) ∧
      ∀ letter result after, link.deliver side now = (some (letter, result), after) →
        (∀ error, result = .error error → error = .protocolState .firstSent .first) ∧
        (result = .ok .finished → ∃ t u v w : Turn, letter.turns = [t, u, v, w] ∧
          letter.message = w.sent ∧ (link.station side).turns = [t, u, v] ∧ t.side = side ∧
          Turn.Complete Sample.link.name t u v w ∧
          Link.Made Sample.pair Sample.link link [t, u, v, w] ∧
          (u.Uncut Sample.link.name t → v.Uncut Sample.link.name u → w.Uncut Sample.link.name v →
            ∀ r, r ∈ t.log ∨ r ∈ u.log → ∀ end', r ∈ (after.station end').engine.store.log))) ∧
    (Sample.link.start .left 0).1 = .ok (some (.first [Sample.trunk.hash] [Sample.trunk.hash])) ∧
    (Sample.crossed.deliver .left 0).1.map Prod.snd = some (.error (.protocolState .firstSent .first)) ∧
    (link.deliver .right 0).1.map Prod.snd = some (.error (.protocolState .firstSent .first)) ∧
    ∃ t u v w, Turn.Complete Sample.link.name t u v w ∧
      Link.Made Sample.pair Sample.link Sample.closing [t, u, v, w] ∧
      [t, u, v, w].map Turn.sent = [.first [Sample.trunk.hash] [Sample.trunk.hash],
        .second [Sample.twig.hash] [Sample.twig.hash] [], .third [Sample.twig.hash] [Sample.trunk],
        .fourth [Sample.twig]] ∧
      let after := (Sample.closing.deliver .left 0).2
      (after.station .left).engine.store.log = [Sample.trunk, Sample.twig] ∧
        (after.station .right).engine.store.log = [Sample.twig, Sample.trunk] := by
  have apart {link : Link} (leads : Sample.link.Leads Sample.pair link) :=
    link_conversations_stay_apart Sample.pair_consistent
      (fun side => Sample.engine_reachable (by cases side <;> simp [Sample.pair])) (fun side => rfl) leads
  refine ⟨apart (Sample.leads_crossed.deliver (Sample.timely _ _)), by decide +kernel, by decide +kernel,
    by decide +kernel, ?_⟩
  obtain ⟨-, steps⟩ := apart Sample.leads_closing
  have ended : (Sample.closing.deliver .left 0).1.map Prod.snd = some (.ok .finished) := by decide +kernel
  have sent : (Sample.closing.deliver .left 0).1.map (fun letter => letter.1.turns.map Turn.sent) =
      some [.first [Sample.trunk.hash] [Sample.trunk.hash],
        .second [Sample.twig.hash] [Sample.twig.hash] [], .third [Sample.twig.hash] [Sample.trunk],
        .fourth [Sample.twig]] := by decide +kernel
  obtain ⟨⟨letter, result⟩, delivered, rfl⟩ := Option.map_eq_some_iff.mp ended
  obtain ⟨-, finished⟩ := (steps .left 0 (Sample.timely _ _)).2 letter _ _ (Prod.ext delivered rfl)
  obtain ⟨t, u, v, w, turns, -, -, -, complete, made, -⟩ := finished rfl
  rw [delivered] at sent
  refine ⟨t, u, v, w, complete, made, ?_, by decide +kernel, by decide +kernel⟩
  rw [← turns]
  exact Option.some.inj sent

end HashLog
