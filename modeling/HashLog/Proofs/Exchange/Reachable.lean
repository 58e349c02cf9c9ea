import HashLog.Proofs.Exchange.Handlers
/-!
Engines as they come about. An engine starts over a store that was filled by writes, and then starts
conversations, processes messages from any peers in any order, well formed or not, and takes local
writes. As long as all records come from a consistent set that the store keeps as they are, the store
and the graph in memory stay in step, which is all that a new conversation needs (`Reachable.sound`).
-/
namespace HashLog

/-- A store keeps the record and returns it as it was written. -/
def Medium.Keeps (medium : Medium) (record : Record) : Prop :=
  record.refusedBy medium.durable = false ∧ record.keptAs medium.durable = record

/-- Stores that records of a set were written to, in memory or in a table. -/
inductive Store.Reachable (records : Set Record) : Store → Prop where
  | inMemory : Store.Reachable records .inMemory
  | durable : Store.Reachable records .durable
  | write {s : Store} {batch : List Record} (reached : s.Reachable records)
      (drawn : ∀ r ∈ batch, r ∈ records) : Store.Reachable records (s.write batch).2
  | createSnapshot {s s' : Store} {picture : StoreSnapshot} (reached : s.Reachable records)
      (created : s.createSnapshot = .ok (picture, s')) : Store.Reachable records s'
  | destroySnapshot {s : Store} {id : Nat} (reached : s.Reachable records) :
      Store.Reachable records (s.destroySnapshot id)
  | reopen {s s' : Store} (reached : s.Reachable records) (opened : s.reopen = .ok s') :
      Store.Reachable records s'

/-- The checks let all records of a set pass. -/
def Settings.Accepts (settings : Settings) (records : Set Record) : Prop :=
  settings.verify = true → ∀ r ∈ records, r.validate settings.writer = .ok ()

/-- Engines over such stores that keep these records and whose checks let them pass. Peers may send
anything as long as the records are of the set. -/
inductive Engine.Reachable (records : Set Record) : Engine → Prop where
  | start {kind : BackendKind} {store : Store} {settings : Settings} {e : Engine}
      (reached : store.Reachable records) (kept : ∀ r ∈ records, store.medium.Keeps r)
      (accepts : settings.Accepts records)
      (started : Engine.start kind store settings = .ok e) : Engine.Reachable records e
  | write {e : Engine} {batch : List Record} (reached : e.Reachable records)
      (drawn : ∀ r ∈ batch, r ∈ records) : Engine.Reachable records (e.write batch).2
  | generate {e : Engine} {now : Nat} {peer : NodeId} (reached : e.Reachable records) :
      Engine.Reachable records (e.generate now peer).2
  | process {e : Engine} {now : Nat} {peer : NodeId} {m : Message} (reached : e.Reachable records)
      (drawn : ∀ r ∈ m.records, r ∈ records) : Engine.Reachable records (e.process now peer m).2

variable {records : Set Record}

/-- Only writes change the medium of a store, so what they keep holds of every such store. -/
theorem Store.Reachable.of_write {P : Medium → Prop} (memory : P Store.inMemory.medium)
    (durable : P Store.durable.medium)
    (write : ∀ {s : Store} {batch : List Record}, s.Reachable records → (∀ r ∈ batch, r ∈ records) →
      P s.medium → P (s.write batch).2.medium)
    {s : Store} (reached : s.Reachable records) : P s.medium := by
  induction reached with
  | inMemory => exact memory
  | durable => exact durable
  | write before drawn ih => exact write before drawn ih
  | createSnapshot _ created ih =>
    obtain ⟨⟨cutoff, begins, ends⟩, -, same⟩ := map_eq_ok.mp created
    obtain ⟨-, rfl⟩ := Prod.mk.inj same
    exact ih
  | destroySnapshot _ ih => exact ih
  | @reopen s s' _ opened ih =>
    rcases s with ⟨m | t, registry⟩
    · obtain rfl := Except.ok.inj opened
      exact ih
    · obtain ⟨-, -, rfl⟩ := map_eq_ok.mp opened
      exact ih

/-- A reachable store holds what was committed, records of the set if it keeps them as they are. -/
theorem Store.Reachable.holds (nonNull : ∀ r ∈ records, r.hash ≠ Hash.null) {s : Store}
    (reached : s.Reachable records) : ∃ commits : Commits, s.Holds commits ∧
      ((∀ r ∈ records, s.medium.Keeps r) → ∀ r ∈ commits.records, r ∈ records) := by
  refine reached.of_write (P := fun medium => ∃ commits : Commits, medium.Holds commits ∧
    ((∀ r ∈ records, medium.Keeps r) → ∀ r ∈ commits.records, r ∈ records)) ?_ ?_ ?_
  · exact ⟨[], holds_inMemory, by simp [Commits.records]⟩
  · exact ⟨[], holds_durable, by simp [Commits.records]⟩
  · rintro s batch - drawn ⟨commits, holds, old⟩
    obtain ⟨after, later, added⟩ :=
      Store.Holds.write (s := s) holds fun r member => nonNull r (drawn r member)
    refine ⟨after, later.holds, ?_⟩
    intro kept r member
    simp only [Medium.Keeps, later.durable] at kept
    rcases mem_addRecords (added ▸ member) with before | new
    · exact old kept r before
    · obtain ⟨original, listed, rfl⟩ := List.mem_map.mp new
      have inBatch := drawn original (List.mem_filter.mp listed).1
      rw [(kept original inBatch).2]
      exact inBatch

namespace Engine

variable {e e' : Engine} {commits : Commits} {now : Nat} {peer : NodeId} {m : Message}

private theorem accept_grows {s s' : Snapshot} {batch : List Record} (sound : e.Sound records commits)
    (consistent : Consistent records) (drawn : ∀ r ∈ batch, r ∈ records)
    (accepted : e.accept s batch = .ok (s', e')) : ∃ more, e.Grows records commits e' more := by
  unfold accept at accepted
  split at accepted
  · obtain ⟨-, rfl⟩ := Prod.mk.inj (Except.ok.inj accepted)
    exact ⟨commits, .refl sound⟩
  · split at accepted
    · cases accepted
    · obtain ⟨-, rfl⟩ := Prod.mk.inj (Except.ok.inj accepted)
      exact (sound.write consistent drawn).imp fun _ grown => grown.1

private theorem onFirst_grows (sound : e.Sound records commits) :
    e.Grows records commits (e.onFirst now peer m).2 commits := by
  obtain ⟨s, registry, taken, -⟩ := sound.holds.snapshot_eq
  unfold onFirst
  simp only [taken]
  cases (e.withRegistry registry).answerFirst s m with
  | error error =>
    obtain ⟨other, released⟩ := (e.withRegistry registry).release_eq s
    simp only [released]
    exact sound.same _ rfl rfl rfl
  | ok reply => exact sound.same _ rfl rfl rfl

private theorem onSecond_grows {started : Nat} {s : Snapshot} (sound : e.Sound records commits)
    (consistent : Consistent records) (drawn : ∀ r ∈ m.records, r ∈ records) :
    ∃ more, e.Grows records commits (e.onSecond started s peer m).2 more := by
  unfold onSecond
  cases accepted : e.accept s m.records with
  | error error => exact ⟨commits, .refl sound⟩
  | ok pair =>
    obtain ⟨s', e'⟩ := pair
    obtain ⟨more, grows⟩ := accept_grows sound consistent drawn accepted
    refine ⟨more, ?_⟩
    dsimp only
    cases e'.answerSecond s' (hashesOf m.records) m with
    | error error => exact grows
    | ok reply => exact grows.trans (grows.sound.same _ rfl rfl rfl)

private theorem onThird_grows {s : Snapshot} (sound : e.Sound records commits)
    (consistent : Consistent records) (drawn : ∀ r ∈ m.records, r ∈ records) :
    ∃ more, e.Grows records commits (e.onThird s peer m).2 more := by
  unfold onThird
  cases accepted : e.accept s m.records with
  | error error => exact ⟨commits, .refl sound⟩
  | ok pair =>
    obtain ⟨s', e'⟩ := pair
    obtain ⟨more, grows⟩ := accept_grows sound consistent drawn accepted
    refine ⟨more, ?_⟩
    dsimp only
    cases e'.answerThird s' (hashesOf m.records) m with
    | error error => exact grows
    | ok reply => exact grows.trans (grows.sound.close _ _)

private theorem onFourth_grows (sound : e.Sound records commits) (consistent : Consistent records)
    (drawn : ∀ r ∈ m.records, r ∈ records) :
    ∃ more, e.Grows records commits (e.onFourth peer m).2 more := by
  unfold onFourth
  split
  · exact ⟨commits, .refl sound⟩
  · split
    · exact ⟨commits, sound.close _ _⟩
    · obtain ⟨more, grows, -⟩ := sound.write consistent drawn
      exact ⟨more, grows.trans (grows.sound.close _ _)⟩

/-- Whatever a peer sends, the store and the graph in memory stay in step. -/
theorem process_grows (sound : e.Sound records commits) (consistent : Consistent records)
    (drawn : ∀ r ∈ m.records, r ∈ records) :
    ∃ more, e.Grows records commits (e.process now peer m).2 more := by
  have expired := expire_grows sound now peer
  obtain ⟨more, advanced⟩ : ∃ more,
      e.Grows records commits ((e.expire now peer).advance now peer m).2 more := by
    unfold advance
    split
    · exact ⟨commits, expired⟩
    · split
      · exact ⟨commits, expired.trans (onFirst_grows expired.sound)⟩
      · exact ⟨commits, expired.trans (onFirst_grows expired.sound)⟩
      · exact (onSecond_grows expired.sound consistent drawn).imp fun _ => expired.trans
      · exact (onThird_grows expired.sound consistent drawn).imp fun _ => expired.trans
      · exact (onFourth_grows expired.sound consistent drawn).imp fun _ => expired.trans
      · exact ⟨commits, expired⟩
  refine ⟨more, ?_⟩
  unfold process
  split
  · rename_i step after ran
    exact ran ▸ advanced
  · rename_i error after ran
    rw [ran] at advanced
    exact advanced.trans (advanced.sound.close _ _)

theorem generate_grows (sound : e.Sound records commits) :
    e.Grows records commits (e.generate now peer).2 commits := by
  have expired := expire_grows sound now peer
  unfold generate
  dsimp only
  split
  · have reset := expired.trans
      (expired.sound.same ((e.expire now peer).setConversation peer .resting) rfl rfl rfl)
    obtain ⟨s, registry, taken, -⟩ := reset.sound.holds.snapshot_eq
    simp only [taken]
    exact reset.trans (reset.sound.same _ rfl rfl rfl)
  · exact expired

/-- Starting takes up all that is stored. -/
theorem start_holds {kind : BackendKind} {store : Store} {settings : Settings}
    (holds : store.Holds commits) (started : Engine.start kind store settings = .ok e) :
    e.Holds commits ∧ e.store = store ∧ e.settings = settings ∧ e.conversations = ∅ := by
  cases kind with
  | store =>
    obtain rfl := Except.ok.inj started
    exact ⟨⟨holds, fun _ _ mirror => by cases mirror⟩, rfl, rfl, rfl⟩
  | mirror =>
    obtain ⟨stored, listed, rfl⟩ := map_eq_ok.mp started
    rw [holds.readAllMetadata_eq] at listed
    obtain rfl := Except.ok.inj listed
    refine ⟨⟨holds, ?_⟩, rfl, rfl, rfl⟩
    intro graph version mirror
    obtain ⟨rfl, -⟩ := Backend.mirror.inj mirror
    rw [List.map_map]
    exact LogGraph.holds_ofEdges holds.proper

theorem kind_start {kind : BackendKind} {store : Store} {settings : Settings}
    (started : Engine.start kind store settings = .ok e) : e.backend.kind = kind := by
  cases kind with
  | store => rw [← Except.ok.inj started]; rfl
  | mirror =>
    obtain ⟨stored, -, rfl⟩ := map_eq_ok.mp started
    rfl

/-- The store of a reachable engine holds records of the set, and so does its graph in memory. -/
theorem Reachable.sound (consistent : Consistent records) (reached : e.Reachable records) :
    ∃ commits, e.Sound records commits := by
  induction reached with
  | start reached kept accepts started =>
    obtain ⟨commits, holds, drawn⟩ := reached.holds consistent.no_null
    obtain ⟨started, same, settings, -⟩ := start_holds holds started
    exact ⟨commits, started, drawn kept, same ▸ kept, settings ▸ accepts⟩
  | write _ drawn ih =>
    obtain ⟨commits, sound⟩ := ih
    exact (sound.write consistent drawn).imp fun _ grown => grown.1.sound
  | generate _ ih => exact ih.imp fun _ sound => (generate_grows sound).sound
  | process _ drawn ih =>
    obtain ⟨commits, sound⟩ := ih
    exact (process_grows sound consistent drawn).imp fun _ grows => grows.sound

end Engine

/-! ## A small log -/

namespace Sample

/-- A record whose hash and predecessor are one byte repeated. -/
def plain (hash prev : UInt8) (accuracy : Accuracy) : Record :=
  ⟨⟨.fill 32 hash⟩, ⟨⟨.fill 32 prev⟩, 1, 0, accuracy⟩, [], .unsigned⟩

def trunk : Record := plain 1 0 .zero

def twig : Record := plain 2 1 .zero

/-- A record and one that follows it. -/
def pair : Set Record := {trunk, twig}

theorem pair_consistent : Consistent pair := by
  refine .of_rank ?_ ?_
    (fun hash => if hash = twig.hash then 2 else if hash = trunk.hash then 1 else 0) ?_
  · rintro r (rfl | rfl) s (rfl | rfl) <;> decide
  · rintro r (rfl | rfl) <;> decide
  · rintro r (rfl | rfl) <;> decide

/-- An engine on a store in memory that checks nothing. -/
def engine (batch : List Record) : Engine :=
  ⟨{ Settings.standard with verify := false }, .store, (Store.inMemory.write batch).2, ∅⟩

theorem engine_reachable_of {records : Set Record} (nonNull : ∀ r ∈ records, r.hash ≠ Hash.null)
    {batch : List Record} (drawn : ∀ r ∈ batch, r ∈ records) : (engine batch).Reachable records := by
  have started : Engine.start .store (Store.inMemory.write batch).2
      { Settings.standard with verify := false } = .ok (engine batch) := rfl
  refine .start (.write .inMemory drawn) ?_ (fun verify => absurd verify Bool.false_ne_true) started
  intro r _
  have holds : Store.inMemory.Holds [] := Store.holds_inMemory
  obtain ⟨after, later, -⟩ := holds.write fun r member => nonNull r (drawn r member)
  rw [Medium.Keeps, later.durable]
  exact ⟨rfl, rfl⟩

theorem engine_reachable {batch : List Record} (drawn : ∀ r ∈ batch, r ∈ pair) :
    (engine batch).Reachable pair := engine_reachable_of pair_consistent.no_null drawn

end Sample

end HashLog
