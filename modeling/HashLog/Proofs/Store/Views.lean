import HashLog.Proofs.Store.MemoryWrites
/-!
Views of a store that goes on. A snapshot is a cutoff on commit numbers, and every question to it is
put to the store as it is at that moment, to tables that have grown since. New commits get greater
numbers than any cutoff taken before, so the view never changes (`Later.view_eq`), and two snapshots
have the same cutoff just when nothing was committed between them.
-/
namespace HashLog

/-- What happens to a store while snapshots of it are open. -/
inductive StoreCall where
  | write (batch : List Record)
  | createSnapshot
  | destroySnapshot (id : Nat)

/-- The records that a call offers. -/
def StoreCall.records : StoreCall → List Record
  | write batch => batch
  | createSnapshot | destroySnapshot _ => []

/-- The offered records that a store does not refuse, in the form in which it keeps them. -/
def Record.keptOf (durable : Bool) (records : List Record) : List Record :=
  (records.filter fun record => !record.refusedBy durable).map (keptAs durable)

namespace Store

def perform (s : Store) : StoreCall → Store
  | .write batch => (s.write batch).2
  | .createSnapshot =>
    match s.createSnapshot with
    | .ok (_, s) => s
    | .error _ => s
  | .destroySnapshot id => s.destroySnapshot id

def performAll (s : Store) (calls : List StoreCall) : Store := calls.foldl perform s

/-- The view of a snapshot answers in this state of the store as the graph of these records, and no
question to it fails. -/
structure Presents (s : Store) (picture : StoreSnapshot) (records : List Record) : Prop where
  find : ∀ hash, ∃ found, s.find picture.cutoff hash = .ok found
  next : ∀ hash, ∃ found, s.next picture.cutoff hash = .ok found
  answers : (s.view picture.cutoff (.ofParts picture.begins picture.ends)).AnswersAs
    (.ofEdges (linksOf records))

variable {s s' : Store} {commits more : Commits} {cutoff : Nat} {f : Frontier}

theorem holds_fresh (fresh : s = .inMemory ∨ s = .durable) : s.Holds [] := by
  rcases fresh with rfl | rfl
  · exact holds_inMemory
  · exact holds_durable

/-- A view shows what it showed. -/
theorem Later.view_eq (later : s.Later commits s' more) (holds : s.Holds commits)
    (old : cutoff ≤ s.medium.last) : s'.view cutoff f = s.view cutoff f := by
  rw [later.holds.view_eq, holds.view_eq, later.frozen old]

theorem Holds.perform {call : StoreCall} (holds : s.Holds commits)
    (nonNull : ∀ record ∈ call.records, record.hash ≠ Hash.null) :
    ∃ after, s.Later commits (s.perform call) after ∧
      after.records = addRecords commits.records (Record.keptOf s.medium.durable call.records) := by
  cases call with
  | write batch => exact holds.write nonNull
  | createSnapshot =>
    obtain ⟨picture, registry, created, -⟩ := holds.createSnapshot_cutoff
    refine ⟨commits, ?_, rfl⟩
    rw [Store.perform, created]
    exact .of_holds holds rfl (Nat.le_refl _)
  | destroySnapshot id => exact ⟨commits, .of_holds holds rfl (Nat.le_refl _), rfl⟩

theorem Holds.performAll {calls : List StoreCall} (holds : s.Holds commits)
    (nonNull : ∀ call ∈ calls, ∀ record ∈ call.records, record.hash ≠ Hash.null) :
    ∃ after, s.Later commits (s.performAll calls) after ∧
      after.records = addRecords commits.records
        (Record.keptOf s.medium.durable (calls.flatMap StoreCall.records)) := by
  induction calls generalizing s commits with
  | nil => exact ⟨commits, .refl holds, rfl⟩
  | cons call rest ih =>
    obtain ⟨middle, first, added⟩ := holds.perform (nonNull call List.mem_cons_self)
    obtain ⟨after, second, all⟩ := ih first.holds fun call member =>
      nonNull call (List.mem_cons_of_mem _ member)
    refine ⟨after, first.trans second, ?_⟩
    rw [all, added, first.durable, ← addRecords_append, List.flatMap_cons]
    simp [Record.keptOf]

theorem createSnapshot_memory {m : MemoryLog} (memory : s.medium = .memory m) : ∃ registry,
    s.createSnapshot = .ok (⟨s.registry.create.1, m.records.size, m.graph.frontier.beginEdges,
      m.graph.frontier.endList⟩, { s with registry }) := by
  refine ⟨s.registry.create.2, ?_⟩
  rw [Store.createSnapshot, picture, memory]
  rfl

theorem Tracks.perform {call : StoreCall} (tracks : s.Tracks commits) : s.Grows commits (s.perform call) := by
  cases call with
  | write batch => exact tracks.write batch
  | createSnapshot =>
    obtain ⟨m, memory, log⟩ := tracks
    obtain ⟨registry, created⟩ := createSnapshot_memory memory
    refine .of_tracks ⟨m, ?_, log⟩
    rw [Store.perform, created, ← memory]
  | destroySnapshot id => exact .of_tracks tracks

theorem Tracks.performAll (tracks : s.Tracks commits) (calls : List StoreCall) :
    s.Grows commits (s.performAll calls) := by
  induction calls generalizing s commits with
  | nil => exact .of_tracks tracks
  | cons call rest ih => exact tracks.perform.trans tracks fun tracks => ih tracks

/-- A new snapshot presents all that is committed, now and in all later states. -/
theorem Holds.presents {picture : StoreSnapshot} {opened later : Store} (holds : s.Holds commits)
    (created : s.createSnapshot = .ok (picture, opened)) (after : s.Later commits later more) :
    later.Presents picture commits.records := by
  obtain ⟨_, registry, taken, old, whole, described⟩ := holds.createSnapshot_eq
  obtain ⟨rfl, rfl⟩ := Prod.mk.inj (Except.ok.inj (created.symm.trans taken))
  refine ⟨fun hash => ⟨_, after.holds.find_eq⟩, fun hash => ⟨_, after.holds.next_eq⟩, ?_⟩
  have graph := LogGraph.holds_ofEdges holds.proper
  rw [after.view_eq holds old, holds.view_eq, whole]
  exact GraphView.answersAs_of_lists graph.toLists (described.alike graph.frontier)

/-- A snapshot of a store in memory presents all that is committed, whatever the hashes are. -/
theorem Tracks.presents {picture : StoreSnapshot} {opened later : Store} (tracks : s.Tracks commits)
    (created : s.createSnapshot = .ok (picture, opened)) (grows : s.Grows commits later) :
    opened.Tracks commits ∧ picture.cutoff ≤ opened.medium.last ∧
      later.Presents picture commits.records := by
  have whole := tracks
  obtain ⟨m, memory, log⟩ := tracks
  obtain ⟨registry, taken⟩ := createSnapshot_memory memory
  obtain ⟨rfl, rfl⟩ := Prod.mk.inj (Except.ok.inj (created.symm.trans taken))
  have old : m.records.size ≤ s.medium.last := by rw [memory]; exact Nat.le_refl _
  refine ⟨⟨m, memory, log⟩, old, ?_⟩
  have answers : (later.view m.records.size
      (.ofParts m.graph.frontier.beginEdges m.graph.frontier.endList)).AnswersAs (.ofEdges commits.links) := by
    rw [grows.view_eq whole old, whole.view_eq,
      Commits.upTo_eq_records fun commit member => log.number_le member]
    apply GraphView.answersAs_of_lists (LogGraph.lists_ofEdges log.nodup)
    have mirrored : m.graph.frontier = (LogGraph.ofEdges commits.links).frontier := by rw [log.mirrors]
    exact mirrored ▸ Frontier.alike_ofParts
  obtain ⟨more, after, -⟩ := grows
  exact ⟨after.find_ok, after.next_ok, answers⟩

/-- Cutoffs never decrease, and they tell whether a record was committed in between. -/
theorem Later.cutoffs {picture picture' : StoreSnapshot} {opened opened' : Store}
    (later : s.Later commits s' more) (holds : s.Holds commits)
    (created : s.createSnapshot = .ok (picture, opened))
    (created' : s'.createSnapshot = .ok (picture', opened')) :
    picture.cutoff ≤ picture'.cutoff ∧
      (picture.cutoff ≠ picture'.cutoff ↔ ∃ record ∈ more.records, record ∉ commits.records) := by
  obtain ⟨_, _, taken, least, -⟩ := holds.createSnapshot_cutoff
  obtain ⟨rfl, -⟩ := Prod.mk.inj (Except.ok.inj (created.symm.trans taken))
  obtain ⟨_, _, taken', least', -⟩ := later.holds.createSnapshot_cutoff
  obtain ⟨rfl, -⟩ := Prod.mk.inj (Except.ok.inj (created'.symm.trans taken'))
  obtain ⟨added, rfl, above⟩ := later.grown
  have bound := (least' _).mp (Nat.le_refl _)
  refine ⟨(least _).mpr fun commit member => bound commit (List.mem_append_left _ member), ?_⟩
  constructor
  · intro differ
    obtain ⟨commit, member⟩ : ∃ commit, commit ∈ added := by
      by_contra none
      obtain rfl : added = [] := List.eq_nil_iff_forall_not_mem.mpr (not_exists.mp none)
      rw [List.append_nil] at least' bound
      exact differ (Nat.le_antisymm ((least _).mpr bound)
        ((least' _).mpr ((least _).mp (Nat.le_refl _))))
    refine ⟨commit.2, ?_, ?_⟩
    · rw [Commits.records_append]
      exact List.mem_append_right _ (List.mem_map_of_mem member)
    · intro old
      have nodup := later.holds.proper.nodup
      rw [Commits.links, Commits.records_append, linksOf_append, Edges.known_append, known_linksOf,
        known_linksOf, List.nodup_append] at nodup
      exact nodup.2.2 _ (List.mem_map_of_mem old) _
        (List.mem_map_of_mem (List.mem_map_of_mem member)) rfl
  · rintro ⟨record, member, fresh⟩ same
    rw [Commits.records_append, List.mem_append] at member
    obtain ⟨number, committed⟩ := Commits.mem_records.mp (member.resolve_left fresh)
    have old : picture.cutoff ≤ s.medium.last := (least _).mpr fun _ => holds.number_le_last
    have low := bound _ (List.mem_append_right _ committed)
    have high := above _ committed
    omega

/-- A snapshot is frozen. Whatever is written after it was opened, it answers as the graph of the
records committed before, and its cutoff differs from a later one just when there is a new record. -/
theorem snapshot_stays_frozen {start : Store} (fresh : start = .inMemory ∨ start = .durable)
    (before after : List StoreCall)
    (nonNull : ∀ call ∈ before ++ after, ∀ record ∈ call.records, record.hash ≠ Hash.null) :
    ∃ records picture opened,
      (start.performAll before).readAll = .ok records ∧
      records = addRecords []
        (Record.keptOf start.medium.durable (before.flatMap StoreCall.records)) ∧
      (start.performAll before).createSnapshot = .ok (picture, opened) ∧
      (opened.performAll after).Presents picture records ∧
      ∃ all picture' opened',
        (opened.performAll after).readAll = .ok all ∧ records <+: all ∧
        (opened.performAll after).createSnapshot = .ok (picture', opened') ∧
        picture.cutoff ≤ picture'.cutoff ∧
        (picture.cutoff ≠ picture'.cutoff ↔ ∃ record ∈ all, record ∉ records) := by
  obtain ⟨commits, reached, added⟩ := (holds_fresh fresh).performAll fun call member =>
    nonNull call (List.mem_append_left _ member)
  obtain ⟨picture, registry, created, -⟩ := reached.holds.createSnapshot_cutoff
  -- opening a snapshot changes nothing but the registry
  have opened : (start.performAll before).Later commits { start.performAll before with registry } commits :=
    .of_holds reached.holds rfl (Nat.le_refl _)
  obtain ⟨more, continued, -⟩ := opened.holds.performAll fun call member =>
    nonNull call (List.mem_append_right before member)
  have later := opened.trans continued
  obtain ⟨picture', registry', created', -⟩ := later.holds.createSnapshot_cutoff
  obtain ⟨least, differ⟩ := later.cutoffs reached.holds created created'
  refine ⟨commits.records, picture, _, reached.holds.readAll_eq, added, created,
    reached.holds.presents created later, more.records, picture', _, later.holds.readAll_eq, ?_,
    created', least, differ⟩
  obtain ⟨further, rfl, -⟩ := later.grown
  rw [Commits.records_append]
  exact List.prefix_append _ _

/-- A duplicate before the snapshot, and after it a late predecessor and a child. -/
theorem snapshot_stays_frozen_of_late_predecessor :
    let record (hash prev : UInt8) : Record :=
      ⟨⟨.fill 32 hash⟩, ⟨⟨.fill 32 prev⟩, 1, 0, .zero⟩, [], .unsigned⟩
    let before : List StoreCall := [.write [record 2 1, record 2 7]]
    let after : List StoreCall := [.createSnapshot, .write [record 1 0, record 3 2], .destroySnapshot 2]
    ∃ picture opened picture' opened',
      (Store.durable.performAll before).createSnapshot = .ok (picture, opened) ∧
      (opened.performAll after).Presents picture [record 2 1] ∧
      (opened.performAll after).createSnapshot = .ok (picture', opened') ∧
      picture.cutoff ≤ picture'.cutoff := by
  intro record before after
  have nonNull : ∀ call ∈ before ++ after, ∀ record ∈ call.records, record.hash ≠ Hash.null := by
    simp only [before, after, List.cons_append, List.nil_append, List.mem_cons, List.not_mem_nil, or_false]
    rintro _ (rfl | rfl | rfl | rfl) <;> decide
  obtain ⟨records, picture, opened, -, committed, created, presents, -, picture', opened', -, -, created',
    least, -⟩ := snapshot_stays_frozen (.inr rfl) before after nonNull
  obtain rfl : records = [record 2 1] := by rw [committed]; decide
  exact ⟨picture, opened, picture', opened', created, presents, created', least⟩

end Store

end HashLog
