import HashLog.Proofs.Store.TableWrites
import HashLog.Proofs.Store.Views
import Mathlib.Data.List.Flatten
import Mathlib.Data.List.Forall2
/-!
Stores as their clients see them. A client writes, opens and closes snapshots, and asks under the
cutoffs that it was given. What it is told is a function of a `Ledger`: of the committed records, of
how many of them each snapshot shows, and of the open snapshots. Commit numbers do not come into it,
though a table leaves gaps in them where it turned records away. So a store in memory and one in a
table answer alike, and so does a table that was closed and opened again in between
(`stores_answer_alike`).
-/
namespace HashLog

/-- A record that every kind of store has a place for and keeps as it is. -/
structure Record.Storable (record : Record) : Prop where
  nonNull : record.hash ≠ Hash.null
  numeric : record.header.accuracy.isNaN = false
  unsignedZero : record.header.accuracy ≠ .negativeZero

/-- What a question is put under: the cutoff of a snapshot, counted from zero in the order in which a
client opened them, or one that hides nothing. -/
inductive Bound where
  | latest
  | snapshot (place : Nat)

/-- A question to a store. -/
inductive StoreQuery where
  | read (hashes : List Hash)
  | readMetadata (hashes : List Hash)
  | readAll
  | readAllMetadata
  | count
  | holds (bound : Bound) (hash : Hash)
  | find (bound : Bound) (hash : Hash)
  | next (bound : Bound) (hash : Hash)
  | openSnapshots

/-- What a client does. -/
inductive StoreUse where
  | call (call : StoreCall)
  | ask (query : StoreQuery)
  | reopen

/-- What a client is told. The begins and ends of a snapshot are sets. -/
inductive StoreAnswer where
  | written (summary : WriteSummary)
  | records (found : List Record)
  | metadata (found : List Metadata)
  | entry (found : Option Metadata)
  | held (found : Bool)
  | size (count : Nat)
  | opened (id : Nat) (begins : Finset (Hash × Hash)) (ends : Finset Hash)
  | closed
  | snapshots (count : Nat)
  deriving DecidableEq

/-- An answer without what it tells of the registry of snapshots. -/
def StoreAnswer.aboutRecords : StoreAnswer → StoreAnswer
  | opened _ begins ends => opened 0 begins ends
  | snapshots _ => snapshots 0
  | answer => answer

/-- The records that a use offers. -/
def StoreUse.records : StoreUse → List Record
  | call made => made.records
  | ask _ | reopen => []

def StoreUse.isReopen : StoreUse → Bool
  | reopen => true
  | call _ | ask _ => false

/-- A store in use, with the cutoffs of the snapshots that were opened, the oldest first. -/
structure StoreClient where
  store : Store
  cutoffs : List Nat

namespace StoreClient

/-- A client of a store that is not in use yet. -/
def of (store : Store) : StoreClient := ⟨store, []⟩

def cutoff (c : StoreClient) : Bound → Nat
  | .latest => Store.latest
  | .snapshot place => c.cutoffs.getD place Store.latest

/-- The part of the log that shows under a bound. -/
def shown (c : StoreClient) (bound : Bound) : List Record :=
  c.store.log.filter fun record => c.store.holds (c.cutoff bound) record.hash

def ask (c : StoreClient) : StoreQuery → Except StoreError StoreAnswer
  | .read hashes => (c.store.read hashes).map .records
  | .readMetadata hashes => (c.store.readMetadata hashes).map .metadata
  | .readAll => c.store.readAll.map .records
  | .readAllMetadata => c.store.readAllMetadata.map .metadata
  | .count => .ok (.size c.store.count)
  | .holds bound hash => .ok (.held (c.store.holds (c.cutoff bound) hash))
  | .find bound hash => (c.store.find (c.cutoff bound) hash).map .entry
  | .next bound hash => (c.store.next (c.cutoff bound) hash).map .metadata
  | .openSnapshots => .ok (.snapshots c.store.openSnapshots)

def perform (c : StoreClient) : StoreCall → Except StoreError StoreAnswer × StoreClient
  | .write batch =>
    let (summary, store) := c.store.write batch
    (.ok (.written summary), { c with store })
  | .createSnapshot =>
    match c.store.createSnapshot with
    | .ok (picture, store) =>
      (.ok (.opened picture.id picture.begins.toFinset picture.ends.toFinset),
        ⟨store, c.cutoffs ++ [picture.cutoff]⟩)
    | .error error => (.error error, c)
  | .destroySnapshot id => (.ok .closed, { c with store := c.store.destroySnapshot id })

/-- One use with what it is answered. Opening the store again is silent where it succeeds. -/
def step (c : StoreClient) : StoreUse → List (Except StoreError StoreAnswer) × StoreClient
  | .call call => ([(c.perform call).1], (c.perform call).2)
  | .ask query => ([c.ask query], c)
  | .reopen =>
    match c.store.reopen with
    | .ok store => ([], { c with store })
    | .error error => ([.error error], c)

/-- Uses in order with all that they are answered. -/
def run (c : StoreClient) : List StoreUse → List (Except StoreError StoreAnswer) × StoreClient
  | [] => ([], c)
  | use :: rest => ((c.step use).1 ++ ((c.step use).2.run rest).1, ((c.step use).2.run rest).2)

end StoreClient

/-- What clients know of a store: the records in commit order, how many of them each snapshot shows,
and the open snapshots. -/
structure Ledger where
  records : List Record
  marks : List Nat
  registry : SnapshotRegistry

namespace Ledger

def empty : Ledger := ⟨[], [], .empty⟩

/-- The records that show under a bound. -/
def shown (l : Ledger) : Bound → List Record
  | .latest => l.records
  | .snapshot place => l.records.take (l.marks.getD place l.records.length)

def ask (l : Ledger) : StoreQuery → StoreAnswer
  | .read hashes => .records (hashes.filterMap fun hash => l.records.find? fun record => record.hash == hash)
  | .readMetadata hashes =>
    .metadata ((hashes.filterMap fun hash =>
      l.records.find? fun record => record.hash == hash).map Record.metadata)
  | .readAll => .records l.records
  | .readAllMetadata => .metadata (l.records.map Record.metadata)
  | .count => .size l.records.length
  | .holds bound hash => .held ((l.shown bound).find? fun record => record.hash == hash).isSome
  | .find bound hash =>
    .entry (((l.shown bound).find? fun record => record.hash == hash).map Record.metadata)
  | .next bound hash =>
    .metadata (((l.shown bound).filter fun record => record.prev == hash).map Record.metadata)
  | .openSnapshots => .snapshots l.registry.count

/-- The begins of the log, each with its predecessor. -/
def begins (l : Ledger) : Finset (Hash × Hash) :=
  (linksOf l.records).toFinset.filter fun link =>
    link.2 = Hash.null ∨ link.2 ∉ (linksOf l.records).known

/-- The ends of the log. -/
def ends (l : Ledger) : Finset Hash :=
  (linksOf l.records).known.toFinset \ (l.records.map Record.prev).toFinset

/-- A write is told how many records the log has grown by, and that the others were duplicates. -/
def perform (l : Ledger) : StoreCall → StoreAnswer × Ledger
  | .write batch =>
    let records := addRecords l.records batch
    let inserted := records.length - l.records.length
    (.written ⟨inserted, batch.length - inserted⟩, { l with records })
  | .createSnapshot =>
    (.opened l.registry.create.1 l.begins l.ends,
      { l with marks := l.marks ++ [l.records.length], registry := l.registry.create.2 })
  | .destroySnapshot id => (.closed, { l with registry := l.registry.destroy id })

/-- One use. Opening a table again forgets which snapshots were open. -/
def step (durable : Bool) (l : Ledger) : StoreUse → List StoreAnswer × Ledger
  | .call call => ([(l.perform call).1], (l.perform call).2)
  | .ask query => ([l.ask query], l)
  | .reopen => ([], { l with registry := if durable then .empty else l.registry })

def run (durable : Bool) (l : Ledger) : List StoreUse → List StoreAnswer × Ledger
  | [] => ([], l)
  | use :: rest =>
    ((l.step durable use).1 ++ ((l.step durable use).2.run durable rest).1,
      ((l.step durable use).2.run durable rest).2)

end Ledger

namespace Ledger

variable {l l' : Ledger} {uses : List StoreUse}

theorem shown_prefix (l : Ledger) (bound : Bound) : l.shown bound <+: l.records := by
  cases bound with
  | latest => exact List.prefix_rfl
  | snapshot place => exact List.take_prefix _ _

/-- Ledgers that differ in their registries at most. -/
structure Agrees (l l' : Ledger) : Prop where
  records : l.records = l'.records
  marks : l.marks = l'.marks

theorem Agrees.shown (agrees : l.Agrees l') : l.shown = l'.shown := by
  funext bound
  cases bound <;> simp only [Ledger.shown, agrees.records, agrees.marks]

theorem Agrees.ask (agrees : l.Agrees l') (query : StoreQuery) :
    (l.ask query).aboutRecords = (l'.ask query).aboutRecords := by
  cases query <;> simp only [Ledger.ask, agrees.records, agrees.shown, StoreAnswer.aboutRecords]

theorem Agrees.perform (agrees : l.Agrees l') (call : StoreCall) :
    (l.perform call).1.aboutRecords = (l'.perform call).1.aboutRecords ∧
      (l.perform call).2.Agrees (l'.perform call).2 := by
  obtain ⟨records, marks⟩ := id agrees
  cases call with
  | write batch =>
    simp only [Ledger.perform, records]
    exact ⟨trivial, rfl, marks⟩
  | createSnapshot =>
    simp only [Ledger.perform, StoreAnswer.aboutRecords, begins, ends, records, marks]
    exact ⟨trivial, rfl, rfl⟩
  | destroySnapshot id => exact ⟨rfl, records, marks⟩

/-- Opening a store again changes no answer about records. -/
theorem Agrees.run (agrees : l.Agrees l') (durable durable' : Bool) (uses : List StoreUse) :
    (l.run durable uses).1.map StoreAnswer.aboutRecords =
        (l'.run durable' (uses.filter (!·.isReopen))).1.map StoreAnswer.aboutRecords ∧
      (l.run durable uses).2.Agrees (l'.run durable' (uses.filter (!·.isReopen))).2 := by
  induction uses generalizing l l' with
  | nil => exact ⟨rfl, agrees⟩
  | cons use rest ih =>
    cases use with
    | call call =>
      obtain ⟨answered, next⟩ := agrees.perform call
      obtain ⟨others, after⟩ := ih next
      refine ⟨?_, after⟩
      simp only [Ledger.run, Ledger.step, List.filter_cons, StoreUse.isReopen, Bool.not_false, ↓reduceIte,
        List.map_append, List.map_cons, List.map_nil, answered, others]
    | ask query =>
      obtain ⟨others, after⟩ := ih agrees
      refine ⟨?_, after⟩
      simp only [Ledger.run, Ledger.step, List.filter_cons, StoreUse.isReopen, Bool.not_false, ↓reduceIte,
        List.map_append, List.map_cons, List.map_nil, agrees.ask query, others]
    | reopen => exact ih (l := { l with registry := _ }) ⟨agrees.records, agrees.marks⟩

/-- Without opening again it does not matter whether the store is durable. -/
theorem run_eq_of_kept (kept : ∀ use ∈ uses, use.isReopen = false) (durable durable' : Bool) :
    l.run durable uses = l.run durable' uses := by
  induction uses generalizing l with
  | nil => rfl
  | cons use rest ih =>
    have step : l.step durable use = l.step durable' use := by
      cases use with
      | call call => rfl
      | ask query => rfl
      | reopen => exact absurd (kept _ List.mem_cons_self) Bool.noConfusion
    rw [run, run, step, ih fun use member => kept use (List.mem_cons_of_mem _ member)]

end Ledger

variable {s : Store} {commits : Commits} {record : Record} {batch : List Record}

/-- A table, if it is one, has the schema that this library writes. -/
def Medium.Current : Medium → Prop
  | memory _ => True
  | table t => t.version = StoreError.schemaVersion

/-! ## Writes -/

namespace Store

/-- A store over such a table opens again, with no snapshot open. -/
theorem reopen_eq (current : s.medium.Current) : s.reopen =
    .ok { s with registry := if s.medium.durable then .empty else s.registry } := by
  rcases s with ⟨m | t, registry⟩
  · rfl
  · have version : t.version = 1 := current
    simp only [reopen, Table.checkVersion, version]
    rfl

theorem current_insert (current : s.medium.Current) : (s.insert record).2.medium.Current := by
  rcases s with ⟨m | t, registry⟩
  · trivial
  · have version : (t.insert record).2.version = t.version := by
      rw [Table.insert_eq]
      split <;> rfl
    exact version.trans current

theorem current_write (current : s.medium.Current) : (s.write batch).2.medium.Current := by
  rw [write_snd]
  induction batch generalizing s with
  | nil => exact current
  | cons record rest ih => exact ih (current_insert current)

@[simp] theorem registry_insert : (s.insert record).2.registry = s.registry := by
  unfold insert
  cases s.medium <;> rfl

/-- An insertion takes one number at most. -/
theorem last_insert_le (s : Store) (record : Record) :
    (s.insert record).2.medium.last ≤ s.medium.last + 1 := by
  rcases s with ⟨m | t, registry⟩
  · simp only [insert, Medium.last, MemoryLog.insert]
    split <;> simp
  · simp only [insert, Medium.last, Table.insert_eq]
    split <;> exact Nat.le_refl _

theorem write_snd_concat : (s.write (batch ++ [record])).2 = ((s.write batch).2.insert record).2 := by
  simp only [write_snd, List.foldl_append, List.foldl_cons, List.foldl_nil]

variable (holds : s.Holds commits)
include holds

/-- A record that can be stored is new just if its hash is. -/
theorem Holds.insert_fst (storable : record.Storable) :
    (s.insert record).1 = !decide (record.hash ∈ hashesIn commits.records) := by
  rcases s with ⟨m | t, registry⟩
  · replace holds : m.Holds commits := holds
    by_cases known : record.hash ∈ hashesIn commits.records
    · simp [Store.insert, holds.insert_of_mem known, known]
    · simp [Store.insert, (holds.toTracks.insert_of_not_mem known).1, known]
  · replace holds : t.Holds commits := holds
    by_cases known : record.hash ∈ hashesIn commits.records
    · simp [Store.insert, (holds.insert_of_not (.inr known)).1, known]
    · simp [Store.insert, (holds.insert_of_new storable.numeric known storable.nonNull).1, known]

theorem Holds.insert_storable (storable : record.Storable) :
    ∃ after, s.Later commits (s.insert record).2 after ∧
      after.records = addRecord commits.records record := by
  obtain ⟨after, later, added⟩ := holds.insert storable.nonNull
  refine ⟨after, later, ?_⟩
  have kept : record.keptAs s.medium.durable = record := by
    unfold Record.keptAs
    split
    · exact Record.tabled_eq_iff.mpr storable.unsignedZero
    · rfl
  rwa [Record.refusedBy, storable.numeric, Bool.and_false, if_neg Bool.false_ne_true, kept] at added

/-- A batch of such records: one number at most is taken for each, and the summary tells by how many
the log has grown. -/
theorem Holds.write_storable (storable : ∀ record ∈ batch, record.Storable) :
    ∃ after, s.Later commits (s.write batch).2 after ∧
      after.records = addRecords commits.records batch ∧
      (s.write batch).1.inserted + commits.records.length = after.records.length ∧
      (s.write batch).1.inserted + (s.write batch).1.duplicates = batch.length ∧
      (s.write batch).2.registry = s.registry ∧
      (s.write batch).2.medium.last ≤ s.medium.last + batch.length := by
  induction batch using List.reverseRecOn with
  | nil => exact ⟨commits, .refl holds, rfl, Nat.zero_add _, rfl, rfl, Nat.le_refl _⟩
  | append_singleton front record ih =>
    obtain ⟨middle, first, added, inserted, total, registry, last⟩ :=
      ih fun record member => storable record (List.mem_append_left _ member)
    have own := storable record (by simp)
    obtain ⟨after, next, grown⟩ := first.holds.insert_storable own
    have counted := first.holds.insert_fst own
    have number := (s.write front).2.last_insert_le record
    rw [write_concat, write_snd_concat, List.length_append, List.length_singleton]
    refine ⟨after, first.trans next, ?_, ?_, ?_, by rw [registry_insert, registry], by omega⟩
    · rw [grown, added, addRecords_append]
      rfl
    · rw [counted, grown]
      by_cases known : record.hash ∈ hashesIn middle.records
      · simp only [known, decide_true, Bool.not_true, WriteSummary.count, Bool.false_eq_true,
          ↓reduceIte, addRecord]
        omega
      · simp only [known, decide_false, Bool.not_false, WriteSummary.count, ↓reduceIte, addRecord,
          List.length_append, List.length_singleton]
        omega
    · simp only [WriteSummary.count]
      split
      · simp only
        omega
      · simp only
        omega

end Store

/-! ## Stores and their ledgers -/

namespace StoreClient

variable {c : StoreClient} {l : Ledger} {bound : Bound} {durable : Bool}

/-- The store holds the records of a ledger, and every cutoff shows as many of them as it marks. -/
structure Follows (c : StoreClient) (durable : Bool) (l : Ledger) (commits : Commits) : Prop where
  holds : c.store.Holds commits
  records : commits.records = l.records
  registry : c.store.registry = l.registry
  durable : c.store.medium.durable = durable
  current : c.store.medium.Current
  marked : List.Forall₂ (fun cutoff mark => cutoff ≤ c.store.medium.last ∧
    mark ≤ l.records.length ∧ commits.upTo cutoff = l.records.take mark) c.cutoffs l.marks

theorem follows_of_fresh (fresh : s = .inMemory ∨ s = .durable) :
    (of s).Follows s.medium.durable .empty [] := by
  refine ⟨Store.holds_fresh fresh, rfl, ?_, rfl, ?_, .nil⟩
  · rcases fresh with rfl | rfl <;> rfl
  · rcases fresh with rfl | rfl
    · trivial
    · rfl

variable (follows : c.Follows durable l commits)
include follows

/-- A later store with the cutoffs of before. -/
theorem Follows.grow {store : Store} {more : Commits} (later : c.store.Later commits store more)
    (current : store.medium.Current) : StoreClient.Follows { c with store } durable
      { l with records := more.records, registry := store.registry } more := by
  refine ⟨later.holds, rfl, rfl, later.durable.trans follows.durable, current, follows.marked.imp ?_⟩
  rintro cutoff mark ⟨old, within, same⟩
  obtain ⟨added, rfl, -⟩ := id later.grown
  refine ⟨Nat.le_trans old later.last_le, ?_, ?_⟩
  · simp only [Commits.records_append, follows.records, List.length_append]
    omega
  · rw [later.frozen old, same, Commits.records_append, follows.records,
      List.take_append_of_le_length within]

/-- A bound shows what its mark says, as long as all commit numbers are below the last cutoff. -/
theorem Follows.upTo_eq (room : c.store.medium.last ≤ Store.latest) (bound : Bound) :
    commits.upTo (c.cutoff bound) = l.shown bound := by
  have unbounded : commits.upTo Store.latest = l.records := by
    rw [← follows.records]
    exact Commits.upTo_eq_records fun commit member =>
      Nat.le_trans (follows.holds.number_le_last member) room
  cases bound with
  | latest => exact unbounded
  | snapshot place =>
    obtain ⟨same, each⟩ := List.forall₂_iff_get.mp follows.marked
    by_cases within : place < c.cutoffs.length
    · have marked := (each place within (same ▸ within)).2.2
      simpa [cutoff, Ledger.shown, within, same ▸ within] using marked
    · have beyond : ¬ place < l.marks.length := same ▸ within
      simpa [cutoff, Ledger.shown, within, beyond] using unbounded

theorem Follows.ask (room : c.store.medium.last ≤ Store.latest) (query : StoreQuery) :
    c.ask query = .ok (l.ask query) := by
  have holds := follows.holds
  have shown := follows.upTo_eq room
  cases query with
  | read hashes => rw [StoreClient.ask, holds.read_eq, follows.records]; rfl
  | readMetadata hashes => rw [StoreClient.ask, holds.readMetadata_eq, follows.records]; rfl
  | readAll => rw [StoreClient.ask, holds.readAll_eq, follows.records]; rfl
  | readAllMetadata => rw [StoreClient.ask, holds.readAllMetadata_eq, follows.records]; rfl
  | count => rw [StoreClient.ask, holds.count_eq, follows.records]; rfl
  | holds bound hash => rw [StoreClient.ask, holds.holds_eq, shown]; rfl
  | find bound hash => rw [StoreClient.ask, holds.find_eq, shown]; rfl
  | next bound hash => rw [StoreClient.ask, holds.next_eq, shown]; rfl
  | openSnapshots => rw [StoreClient.ask, Store.openSnapshots, follows.registry]; rfl

/-- The parts of a snapshot are those of the ledger as sets. -/
private theorem Follows.toFinset_begins {begins : List (Hash × Hash)}
    (begun : ∀ hash prev, (hash, prev) ∈ begins ↔ commits.links.Begins hash prev) :
    begins.toFinset = l.begins := by
  ext ⟨hash, prev⟩
  rw [List.mem_toFinset, begun, Commits.links, follows.records, Ledger.begins, Finset.mem_filter,
    List.mem_toFinset]
  rfl

private theorem Follows.toFinset_ends {ends : List Hash}
    (ended : ∀ hash, hash ∈ ends ↔ commits.links.Ends hash) : ends.toFinset = l.ends := by
  ext hash
  rw [List.mem_toFinset, ended, Commits.links, follows.records, Ledger.ends, Finset.mem_sdiff,
    List.mem_toFinset, List.mem_toFinset, Edges.Ends, List.mem_map]
  refine and_congr_right fun _ => ?_
  simp only [mem_linksOf, not_exists, not_and]
  exact ⟨fun last record member => last record.hash record member rfl,
    fun last _ record member _ => last record member⟩

/-- A call is answered as by the ledger, and the store follows what the ledger becomes. -/
theorem Follows.perform {call : StoreCall} (storable : ∀ record ∈ call.records, record.Storable) :
    (c.perform call).1 = .ok (l.perform call).1 ∧
      (∃ after, (c.perform call).2.Follows durable (l.perform call).2 after) ∧
      (c.perform call).2.store.medium.last ≤ c.store.medium.last + call.records.length := by
  obtain ⟨holds, records, registry, kind, current, marked⟩ := id follows
  cases call with
  | write batch =>
    have storable : ∀ record ∈ batch, record.Storable := storable
    obtain ⟨after, later, added, inserted, total, same, last⟩ := holds.write_storable storable
    have counted : (c.store.write batch).1 =
        ⟨(addRecords l.records batch).length - l.records.length,
          batch.length - ((addRecords l.records batch).length - l.records.length)⟩ := by
      rw [added, records] at inserted
      generalize (c.store.write batch).1 = summary at inserted total ⊢
      obtain ⟨new, known⟩ := summary
      dsimp only at inserted total
      simp only [WriteSummary.mk.injEq]
      omega
    have grown := follows.grow later (Store.current_write current)
    rw [added, records, same, registry] at grown
    exact ⟨congrArg (fun summary => Except.ok (StoreAnswer.written summary)) counted, ⟨after, grown⟩, last⟩
  | createSnapshot =>
    obtain ⟨cutoff, begins, ends, created, least, -, begun, ended⟩ := holds.createSnapshot_parts
    -- the cutoff of a new snapshot leaves nothing out, so its mark is the length of the log
    have shown := Commits.upTo_eq_records ((least _).mp (Nat.le_refl cutoff))
    have old : cutoff ≤ c.store.medium.last := (least _).mpr fun _ => holds.number_le_last
    simp only [StoreClient.perform, created, follows.toFinset_begins begun, follows.toFinset_ends ended,
      registry]
    refine ⟨rfl, ⟨commits, holds, records, rfl, kind, current, ?_⟩, Nat.le_add_right _ _⟩
    refine List.rel_append marked (.cons ⟨old, Nat.le_refl _, ?_⟩ .nil)
    rw [shown, records, List.take_length]
  | destroySnapshot id =>
    refine ⟨rfl, ⟨commits, holds, records, ?_, kind, current, marked⟩, Nat.le_add_right _ _⟩
    rw [StoreClient.perform, Ledger.perform, ← registry]
    rfl

/-- So is every use. -/
theorem Follows.step {use : StoreUse} (storable : ∀ record ∈ use.records, record.Storable)
    (room : c.store.medium.last ≤ Store.latest) :
    (c.step use).1 = (l.step durable use).1.map .ok ∧
      (∃ after, (c.step use).2.Follows durable (l.step durable use).2 after) ∧
      (c.step use).2.store.medium.last ≤ c.store.medium.last + use.records.length := by
  cases use with
  | call call =>
    obtain ⟨answered, after, last⟩ := follows.perform storable
    exact ⟨congrArg (fun answer => [answer]) answered, after, last⟩
  | ask query =>
    exact ⟨congrArg (fun answer => [answer]) (follows.ask room query), ⟨commits, follows⟩,
      Nat.le_add_right _ _⟩
  | reopen =>
    obtain ⟨holds, records, registry, kind, current, marked⟩ := follows
    simp only [StoreClient.step, Store.reopen_eq current, Ledger.step, kind, registry]
    exact ⟨rfl, ⟨commits, holds, records, rfl, kind, current, marked⟩, Nat.le_add_right _ _⟩

/-- And so is a run that offers no more records than there are commit numbers. -/
theorem Follows.run {uses : List StoreUse}
    (storable : ∀ use ∈ uses, ∀ record ∈ use.records, record.Storable)
    (room : c.store.medium.last + (uses.flatMap StoreUse.records).length ≤ Store.latest) :
    (c.run uses).1 = (l.run durable uses).1.map .ok ∧
      (∃ after, (c.run uses).2.Follows durable (l.run durable uses).2 after) ∧
      (c.run uses).2.store.medium.last ≤ Store.latest := by
  induction uses generalizing c l commits with
  | nil => exact ⟨rfl, ⟨commits, follows⟩, Nat.le_trans (Nat.le_add_right _ _) room⟩
  | cons use rest ih =>
    rw [List.flatMap_cons, List.length_append] at room
    obtain ⟨answered, ⟨middle, next⟩, last⟩ :=
      follows.step (storable use List.mem_cons_self) (by omega)
    obtain ⟨others, after, end_⟩ := ih next (fun use member => storable use (List.mem_cons_of_mem _ member))
      (by omega)
    refine ⟨?_, after, end_⟩
    rw [StoreClient.run, Ledger.run, answered, others, List.map_append]

/-- What shows under a bound is what the ledger marks. -/
theorem Follows.shown_eq (room : c.store.medium.last ≤ Store.latest) : c.shown bound = l.shown bound := by
  have nodup : (hashesIn l.records).Nodup := by
    have proper := follows.holds.proper.nodup
    rwa [Commits.links, known_linksOf, follows.records] at proper
  obtain ⟨hidden, split⟩ := l.shown_prefix bound
  rw [← split, hashesIn_append, List.nodup_append] at nodup
  have visible (record : Record) : c.store.holds (c.cutoff bound) record.hash = true ↔
      record.hash ∈ hashesIn (l.shown bound) := by
    rw [follows.holds.holds_eq, follows.upTo_eq room, List.find?_isSome]
    simp [mem_hashesIn]
  rw [shown, follows.holds.log_eq, follows.records, ← split, List.filter_append,
    List.filter_eq_self.mpr fun record member => (visible record).mpr (List.mem_map_of_mem member),
    List.filter_eq_nil_iff.mpr fun record member shows => ?_, List.append_nil]
  exact nodup.2.2 _ ((visible record).mp shows) _ (List.mem_map_of_mem member) rfl

omit follows in
/-- A client of a new store is answered as by an empty ledger, and sees what it marks. -/
theorem run_of_fresh {uses : List StoreUse} (fresh : s = .inMemory ∨ s = .durable)
    (storable : ∀ use ∈ uses, ∀ record ∈ use.records, record.Storable)
    (room : (uses.flatMap StoreUse.records).length ≤ Store.latest) :
    let ledger := Ledger.empty.run s.medium.durable uses
    ((of s).run uses).1 = ledger.1.map .ok ∧ ((of s).run uses).2.store.log = ledger.2.records ∧
      ((of s).run uses).2.shown = ledger.2.shown := by
  have unused : (of s).store.medium.last = 0 := by rcases fresh with rfl | rfl <;> rfl
  obtain ⟨answered, ⟨commits, after⟩, last⟩ :=
    (follows_of_fresh fresh).run storable (by rwa [unused, Nat.zero_add])
  exact ⟨answered, after.holds.log_eq.trans after.records, funext fun _ => after.shown_eq last⟩

end StoreClient

/-- The two kinds of store answer alike, whatever a client writes and asks and in whatever order it
opens and closes snapshots, as long as the commit numbers fit a cutoff. No answer is an error, and the
same records show under the cutoffs that the two stores gave out, at every moment the first ones of
the log. That a table is closed and opened again in between makes no difference to what it tells about
records. -/
theorem stores_answer_alike (uses : List StoreUse)
    (storable : ∀ use ∈ uses, ∀ record ∈ use.records, record.Storable)
    (room : (uses.flatMap StoreUse.records).length ≤ Store.latest) :
    let kept := uses.filter (!·.isReopen)
    let memory := (StoreClient.of .inMemory).run uses
    let table := (StoreClient.of .durable).run uses
    (∃ told tabled unopened : List StoreAnswer, memory.1 = told.map .ok ∧ table.1 = tabled.map .ok ∧
      ((StoreClient.of .durable).run kept).1 = unopened.map .ok ∧
      told.map StoreAnswer.aboutRecords = tabled.map StoreAnswer.aboutRecords ∧
      tabled.map StoreAnswer.aboutRecords = unopened.map StoreAnswer.aboutRecords ∧
      (kept = uses → told = tabled)) ∧
    memory.2.store.log = table.2.store.log ∧
    ∀ bound, memory.2.shown bound = table.2.shown bound ∧ memory.2.shown bound <+: memory.2.store.log := by
  intro kept memory table
  have offered : kept.Sublist uses := List.filter_sublist
  obtain ⟨told, log, shown⟩ := StoreClient.run_of_fresh (.inl rfl) storable room
  obtain ⟨tabled, log', shown'⟩ := StoreClient.run_of_fresh (.inr rfl) storable room
  obtain ⟨unopened, -⟩ := StoreClient.run_of_fresh (.inr rfl)
    (fun use member => storable use (offered.subset member))
    (Nat.le_trans (offered.flatMap StoreUse.records).length_le room)
  -- each of the three ledgers agrees with that of the table run without reopening
  have same : Ledger.empty.Agrees Ledger.empty := ⟨rfl, rfl⟩
  obtain ⟨answers, final⟩ := same.run false true uses
  obtain ⟨answers', final'⟩ := same.run true true uses
  have records := final.records.trans final'.records.symm
  have marks := final.marks.trans final'.marks.symm
  refine ⟨⟨_, _, _, told, tabled, unopened, answers.trans answers'.symm, answers', ?_⟩,
    log.trans (records.trans log'.symm), fun bound => ⟨?_, ?_⟩⟩
  · intro whole
    have unbroken : ∀ use ∈ uses, use.isReopen = false := by
      intro use member
      rw [← whole] at member
      simpa using (List.mem_filter.mp member).2
    exact congrArg Prod.fst (Ledger.run_eq_of_kept unbroken false true)
  · exact congrFun (shown.trans ((Ledger.Agrees.shown ⟨records, marks⟩).trans shown'.symm)) bound
  · rw [congrFun shown bound, log]
    exact Ledger.shown_prefix _ bound

/-- A duplicate takes a number in the table, so the two cutoffs differ, yet both show the same records. What
was written after the snapshot is read, but does not show under it. -/
theorem stores_answer_alike_across_gap :
    let record (hash prev : UInt8) : Record :=
      ⟨⟨.fill 32 hash⟩, ⟨⟨.fill 32 prev⟩, 1, 0, .zero⟩, [], .unsigned⟩
    let uses : List StoreUse := [.call (.write [record 2 1, record 2 1, record 1 0]),
      .call .createSnapshot, .reopen, .call (.write [record 3 2]), .ask (.next (.snapshot 0) ⟨.fill 32 2⟩),
      .ask (.read [⟨.fill 32 3⟩, ⟨.fill 32 1⟩])]
    let memory := (StoreClient.of .inMemory).run uses
    let table := (StoreClient.of .durable).run uses
    memory.2.cutoffs = [2] ∧ table.2.cutoffs = [3] ∧
      (∃ told tabled : List StoreAnswer, memory.1 = told.map .ok ∧ table.1 = tabled.map .ok ∧
        told.map StoreAnswer.aboutRecords = tabled.map StoreAnswer.aboutRecords) ∧
      memory.2.shown (.snapshot 0) = table.2.shown (.snapshot 0) ∧
      memory.2.shown (.snapshot 0) = [record 2 1, record 1 0] ∧
      memory.1.drop 3 = [.ok (.metadata []), .ok (.records [record 3 2, record 1 0])] ∧
      table.1.drop 3 = [.ok (.metadata []), .ok (.records [record 3 2, record 1 0])] := by
  intro record uses memory table
  have storable : ∀ use ∈ uses, ∀ record ∈ use.records, record.Storable := by
    have each : ∀ r ∈ [record 2 1, record 2 1, record 1 0, record 3 2], r.Storable := by
      simp only [List.mem_cons, List.not_mem_nil, or_false]
      rintro _ (rfl | rfl | rfl | rfl) <;> exact ⟨by decide, by decide, by decide⟩
    simp only [uses, List.mem_cons, List.not_mem_nil, or_false]
    rintro _ (rfl | rfl | rfl | rfl | rfl | rfl) r member
    · exact each r (List.mem_append_left [record 3 2] member)
    · cases member
    · cases member
    · exact each r (List.mem_append_right [record 2 1, record 2 1, record 1 0] member)
    · cases member
    · cases member
  obtain ⟨⟨told, tabled, _, first, second, -, alike, -, -⟩, -, shown⟩ :=
    stores_answer_alike uses storable (by decide)
  exact ⟨by decide, by decide, ⟨told, tabled, first, second, alike⟩, (shown _).1, by decide,
    by decide +kernel, by decide +kernel⟩

end HashLog
