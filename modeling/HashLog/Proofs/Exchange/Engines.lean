import HashLog.Proofs.Exchange.Plans
import HashLog.Proofs.Exchange.Snapshots
/-!
The backend of an engine. `Holds` says that the store and, where there is one, the graph in memory
have taken in the same commits. Snapshots show all of them, opening and closing snapshots changes
nothing but the registry, and a write keeps both in step as long as the store drops no record whose
hash it lacks (`TakesAll`).
-/
namespace HashLog

/-- The store keeps the record or knows its hash already. -/
def Store.Takes (s : Store) (record : Record) : Prop :=
  record.refusedBy s.medium.durable = true → record.hash ∈ hashesIn s.log

/-- The store takes these records one after the other. -/
def Store.TakesAll : Store → List Record → Prop
  | _, [] => True
  | s, record :: rest => s.Takes record ∧ Store.TakesAll (s.insert record).2 rest

/-- A store takes records that it refuses only if it knows their hash. -/
theorem Store.Holds.takesAll {s : Store} {commits : Commits} {batch : List Record}
    (holds : s.Holds commits) (nonNull : ∀ r ∈ batch, r.hash ≠ Hash.null)
    (known : ∀ r ∈ batch, r.refusedBy s.medium.durable = true → r.hash ∈ hashesIn commits.records) :
    s.TakesAll batch := by
  induction batch generalizing s commits with
  | nil => trivial
  | cons r rest ih =>
    obtain ⟨after, later, added⟩ := holds.insert (nonNull r List.mem_cons_self)
    refine ⟨?_, ih later.holds (fun r member => nonNull r (List.mem_cons_of_mem _ member)) ?_⟩
    · rw [Takes, holds.log_eq]
      exact known r List.mem_cons_self
    · rw [later.durable, added]
      intro other member refused
      have old := known other (List.mem_cons_of_mem _ member) refused
      split
      · exact old
      · exact hashesIn_addRecord.mpr (Or.inl old)

theorem Store.Later.registry {s : Store} {commits : Commits} (holds : s.Holds commits)
    (registry : SnapshotRegistry) : s.Later commits { s with registry } commits :=
  .of_holds holds rfl (Nat.le_refl _)

namespace Engine

/-- The store and the graph in memory, if there is one, hold these commits. -/
structure Holds (e : Engine) (commits : Commits) : Prop where
  store : e.store.Holds commits
  mirror : ∀ graph version, e.backend = .mirror graph version → graph.Holds commits.links

/-- Without a graph in memory the store is all that holds them. -/
theorem Holds.of_plain {e : Engine} {commits : Commits} (plain : e.backend.kind = .store)
    (holds : e.store.Holds commits) : e.Holds commits :=
  ⟨holds, fun _ _ mirror => by rw [mirror] at plain; cases plain⟩

/-- The engine with other snapshots open. -/
def withRegistry (e : Engine) (registry : SnapshotRegistry) : Engine :=
  { e with store := { e.store with registry } }

variable {e : Engine} {commits : Commits} {batch : List Record} {s : Snapshot} {peer other : NodeId}
  {c : Conversation}

@[simp] theorem conversation_setConversation :
    (e.setConversation peer c).conversation peer = c := by
  simp [conversation, setConversation]

theorem conversation_setConversation_of_ne (differs : other ≠ peer) :
    (e.setConversation peer c).conversation other = e.conversation other := by
  simp [conversation, setConversation, Std.TreeMap.getD_insert, Ne.symm differs]

theorem Holds.withRegistry {registry : SnapshotRegistry} (holds : e.Holds commits) :
    (e.withRegistry registry).Holds commits :=
  ⟨holds.store, holds.mirror⟩

theorem Holds.setConversation (holds : e.Holds commits) : (e.setConversation peer c).Holds commits :=
  ⟨holds.store, holds.mirror⟩

/-- A new snapshot shows all that is committed. -/
theorem Holds.snapshot_eq (holds : e.Holds commits) : ∃ s registry,
    e.snapshot = .ok (s, e.withRegistry registry) ∧ s.Frozen e.store commits commits.links := by
  rcases e with ⟨settings, ⟨graph, version⟩ | _, store, conversations⟩
  · exact ⟨_, store.registry, rfl, Snapshot.frozen_graph (holds.mirror graph version rfl)⟩
  · obtain ⟨picture, registry, created, old, whole, described⟩ := holds.store.createSnapshot_eq
    exact ⟨_, registry, map_eq_ok.mpr ⟨_, created, rfl⟩,
      Snapshot.frozen_store holds.store old whole described⟩

theorem release_eq (e : Engine) (s : Snapshot) : ∃ registry, e.release s = e.withRegistry registry := by
  unfold release
  cases s.base with
  | graph _ => exact ⟨e.store.registry, rfl⟩
  | store picture _ => exact ⟨e.store.registry.destroy picture.id, rfl⟩

theorem close_eq (e : Engine) (peer : NodeId) (c : Conversation) : ∃ registry,
    e.close peer c = (e.withRegistry registry).setConversation peer c := by
  unfold close
  cases (e.conversation peer).snapshot? with
  | none => exact ⟨e.store.registry, rfl⟩
  | some s =>
    obtain ⟨registry, released⟩ := e.release_eq s
    exact ⟨registry, by rw [← released]⟩

@[simp] theorem conversation_close : (e.close peer c).conversation peer = c := by
  obtain ⟨registry, closed⟩ := e.close_eq peer c
  rw [closed, conversation_setConversation]

/-- Dropping an old conversation leaves everything but that conversation and the registry. -/
theorem expire_eq (e : Engine) (now : Nat) (peer : NodeId) : ∃ registry,
    e.expire now peer = e.withRegistry registry ∨
      e.expire now peer = (e.withRegistry registry).setConversation peer .resting := by
  unfold expire
  split
  · exact (e.close_eq peer .resting).imp fun _ closed => Or.inr closed
  · exact ⟨e.store.registry, Or.inl rfl⟩

theorem write_mirror {graph : LogGraph} {version : Nat}
    (mirror : e.backend = .mirror graph version) :
    (e.write batch).2.backend = .mirror (graph.ingest (batch.map LogGraph.edgeOf)).2
      (version + (graph.ingest (batch.map LogGraph.edgeOf)).1) := by
  rw [write, mirror]

theorem write_store : (e.write batch).2.store = (e.store.write batch).2 := by
  unfold write
  cases e.backend <;> rfl

@[simp] theorem write_settings : (e.write batch).2.settings = e.settings := by
  unfold write
  cases e.backend <;> rfl

@[simp] theorem kind_write : (e.write batch).2.backend.kind = e.backend.kind := by
  unfold write
  cases e.backend <;> rfl

@[simp] theorem conversation_write : (e.write batch).2.conversation peer = e.conversation peer := by
  unfold write
  cases e.backend <;> rfl

/-- The links of a log that takes all records of a batch grow by theirs. -/
theorem links_write {s : Store} (holds : s.Holds commits)
    (nonNull : ∀ record ∈ batch, record.hash ≠ Hash.null) (taken : s.TakesAll batch) :
    ∃ after, s.Later commits (s.write batch).2 after ∧
      after.records = addRecords commits.records ((batch.filter fun record =>
        !record.refusedBy s.medium.durable).map (Record.keptAs s.medium.durable)) ∧
      after.links = commits.links.addAll (batch.map LogGraph.edgeOf) := by
  obtain ⟨after, later, records⟩ := holds.write nonNull
  refine ⟨after, later, records, ?_⟩
  clear later
  rw [Commits.links, records]
  clear records
  induction batch generalizing s commits with
  | nil => rfl
  | cons record rest ih =>
    obtain ⟨takes, others⟩ := taken
    obtain ⟨middle, first, added⟩ := holds.insert (nonNull record List.mem_cons_self)
    have step := ih first.holds (fun record member => nonNull record (List.mem_cons_of_mem _ member)) others
    rw [first.durable, added] at step
    have linked : middle.links = commits.links.add (LogGraph.edgeOf record) := by
      rw [Commits.links, added]
      split
      · rename_i refused
        have known := takes refused
        rw [holds.log_eq] at known
        simp [Edges.add, Commits.links, LogGraph.edgeOf, known]
      · rw [linksOf_addRecord]
        simp [Commits.links, LogGraph.edgeOf]
    rw [List.map_cons, Edges.addAll, List.foldl_cons, ← Edges.addAll, ← linked, ← step]
    by_cases refused : record.refusedBy s.medium.durable = true <;> simp [addRecords, refused]

/-- A write keeps the graph in memory in step with the store. -/
theorem Holds.write (holds : e.Holds commits) (nonNull : ∀ record ∈ batch, record.hash ≠ Hash.null)
    (taken : e.store.TakesAll batch) :
    ∃ after, (e.write batch).2.Holds after ∧ e.store.Later commits (e.write batch).2.store after ∧
      after.records = addRecords commits.records ((batch.filter fun record =>
        !record.refusedBy e.store.medium.durable).map (Record.keptAs e.store.medium.durable)) ∧
      after.links = commits.links.addAll (batch.map LogGraph.edgeOf) := by
  obtain ⟨after, later, records, links⟩ := links_write holds.store nonNull taken
  rw [← write_store] at later
  refine ⟨after, ⟨later.holds, ?_⟩, later, records, links⟩
  intro graph version mirror
  cases backend : e.backend with
  | mirror old before =>
    rw [write_mirror backend, Backend.mirror.injEq] at mirror
    rw [← mirror.1, links]
    apply (holds.mirror old before backend).ingest
    intro link member
    obtain ⟨record, listed, rfl⟩ := List.mem_map.mp member
    exact nonNull record listed
  | store => simp [Engine.write, backend] at mirror

end Engine

end HashLog
