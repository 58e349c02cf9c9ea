import HashLog.Store.Store
import HashLog.Proofs.Store.MemoryCommits
import HashLog.Proofs.Store.TableCommits
/-!
What a store holds, in memory or in a table. Every query of a store is a function of its commits:
all of them for a read, those up to a cutoff for a view. Writing appends commits under new numbers,
so a view once opened shows the same links for good.
-/
namespace HashLog

/-- The form in which a store keeps a record; a durable one has no negative zero. -/
def Record.keptAs (durable : Bool) (record : Record) : Record :=
  if durable then record.tabled else record

/-- True if a store has no place for a record: a durable one keeps numeric accuracies only. -/
def Record.refusedBy (durable : Bool) (record : Record) : Bool :=
  durable && record.header.accuracy.isNaN

@[simp] theorem Record.hash_keptAs {durable : Bool} {record : Record} :
    (record.keptAs durable).hash = record.hash := by
  cases durable <;> rfl

@[simp] theorem Record.prev_keptAs {durable : Bool} {record : Record} :
    (record.keptAs durable).prev = record.prev := by
  cases durable <;> rfl

namespace Medium

def durable : Medium → Bool
  | memory _ => false
  | table _ => true

/-- The last number that a commit has taken. -/
def last : Medium → Nat
  | memory m => m.records.size
  | table t => t.lastSeq

/-- The medium holds these commits. -/
def Holds : Medium → Commits → Prop
  | memory m, commits => m.Holds commits
  | table t, commits => t.Holds commits

end Medium

namespace Store

/-- The store holds these commits. -/
def Holds (s : Store) (commits : Commits) : Prop := s.medium.Holds commits

/-- All records in commit order, as a full read returns them. -/
def log (s : Store) : List Record :=
  match s.readAll with
  | .ok records => records
  | .error _ => []

/-- A later state of a store: commits were added under new numbers and none was lost. -/
structure Later (before : Store) (earlier : Commits) (after : Store) (commits : Commits) : Prop where
  holds : after.Holds commits
  durable : after.medium.durable = before.medium.durable
  last_le : before.medium.last ≤ after.medium.last
  grown : ∃ more, commits = earlier ++ more ∧ ∀ commit ∈ more, before.medium.last < commit.1

variable {s : Store} {commits : Commits} {record : Record} {cutoff : Nat} {f : Frontier}

theorem holds_inMemory : Store.inMemory.Holds [] := MemoryLog.holds_empty

theorem holds_durable : Store.durable.Holds [] := Table.holds_empty

/-- A state that holds the same commits, whatever numbers were used up. -/
theorem Later.of_holds {s' : Store} (holds : s'.Holds commits)
    (durable : s'.medium.durable = s.medium.durable) (last : s.medium.last ≤ s'.medium.last) :
    s.Later commits s' commits :=
  ⟨holds, durable, last, [], by simp, by simp⟩

theorem Later.refl (holds : s.Holds commits) : s.Later commits s commits :=
  .of_holds holds rfl (Nat.le_refl _)

theorem Later.trans {s₁ s₂ s₃ : Store} {c₁ c₂ c₃ : Commits} (first : s₁.Later c₁ s₂ c₂)
    (second : s₂.Later c₂ s₃ c₃) : s₁.Later c₁ s₃ c₃ := by
  obtain ⟨more, rfl, above⟩ := first.grown
  obtain ⟨further, rfl, beyond⟩ := second.grown
  refine ⟨second.holds, second.durable.trans first.durable, Nat.le_trans first.last_le second.last_le,
    more ++ further, List.append_assoc .., ?_⟩
  intro commit member
  rcases List.mem_append.mp member with next | last
  · exact above commit next
  · exact Nat.lt_of_le_of_lt first.last_le (beyond commit last)

/-- What a cutoff showed then it shows now. -/
theorem Later.frozen {s' : Store} {more : Commits} (later : s.Later commits s' more)
    (old : cutoff ≤ s.medium.last) : more.upTo cutoff = commits.upTo cutoff := by
  obtain ⟨added, rfl, above⟩ := later.grown
  exact Commits.upTo_append fun commit member => Nat.lt_of_le_of_lt old (above commit member)

private theorem later_concat {s' : Store} (kept : s'.Holds (commits ++ [(s.medium.last + 1, record)]))
    (durable : s'.medium.durable = s.medium.durable) (last : s.medium.last ≤ s'.medium.last) :
    s.Later commits s' (commits ++ [(s.medium.last + 1, record)]) :=
  ⟨kept, durable, last, _, rfl, by simp⟩

variable (holds : s.Holds commits)
include holds

theorem Holds.proper : commits.links.Proper := by
  rcases s with ⟨m | t, registry⟩
  · exact MemoryLog.Holds.graph holds |>.proper
  · exact Table.Holds.proper holds

theorem Holds.readAll_eq : s.readAll = .ok commits.records := by
  rcases s with ⟨m | t, registry⟩
  · exact congrArg Except.ok (MemoryLog.Holds.toTracks holds).records_eq.symm
  · have rows := Table.Holds.rows holds
    have plain := Table.Holds.plain holds
    simp only [readAll, rows, List.mapM_map]
    exact mapM_ok fun commit member => Row.record_ofRecord (plain commit member)

theorem Holds.log_eq : s.log = commits.records := by rw [log, holds.readAll_eq]

theorem Holds.readAllMetadata_eq :
    s.readAllMetadata = .ok (commits.records.map Record.metadata) := by
  rcases s with ⟨m | t, registry⟩
  · rw [(MemoryLog.Holds.toTracks holds).records_eq]
    rfl
  · have rows := Table.Holds.rows holds
    simp only [readAllMetadata, rows, List.mapM_map, Commits.records, List.map_map]
    exact mapM_ok fun commit _ => Row.metadata_ofRecord

omit holds in
private theorem memory_find?_eq {m : MemoryLog} (holds : m.Holds commits) (hash : Hash) :
    m.find? hash = commits.records.find? fun record => record.hash == hash := by
  ext record
  rw [holds.find?_eq_some, find?_eq_some holds.nodup]

/-- A read finds the records of the hashes that are there. -/
theorem Holds.read_eq {hashes : List Hash} : s.read hashes =
    .ok (hashes.filterMap fun hash => commits.records.find? fun record => record.hash == hash) := by
  rcases s with ⟨m | t, registry⟩
  · exact congrArg Except.ok (List.filterMap_congr fun hash _ => memory_find?_eq holds hash)
  · exact Table.Holds.read_eq holds

theorem Holds.readMetadata_eq {hashes : List Hash} : s.readMetadata hashes =
    .ok ((hashes.filterMap fun hash =>
      commits.records.find? fun record => record.hash == hash).map Record.metadata) := by
  rcases s with ⟨m | t, registry⟩
  · exact congrArg (fun found => Except.ok (found.map Record.metadata))
      (List.filterMap_congr fun hash _ => memory_find?_eq holds hash)
  · exact Table.Holds.readMetadata_eq holds

theorem Holds.count_eq : s.count = commits.records.length := by
  rcases s with ⟨m | t, registry⟩
  · rw [(MemoryLog.Holds.toTracks holds).records_eq, Array.length_toList]
    rfl
  · have rows := Table.Holds.rows holds
    simp only [count, rows, List.length_map, Commits.records]

/-- One more record: it gets a number of its own unless it is known or refused. -/
theorem Holds.insert (nonNull : record.hash ≠ Hash.null) :
    ∃ after, s.Later commits (s.insert record).2 after ∧
      after.records = if record.refusedBy s.medium.durable then commits.records
        else addRecord commits.records (record.keptAs s.medium.durable) := by
  have now := Later.refl holds
  rcases s with ⟨m | t, registry⟩
  · replace holds : m.Holds commits := holds
    by_cases known : record.hash ∈ hashesIn commits.records
    · refine ⟨commits, ?_, by simp [Record.refusedBy, Medium.durable, addRecord, known]⟩
      simpa only [Store.insert, holds.insert_of_mem known] using now
    · have inserted := holds.insert_of_not_mem known nonNull
      have grown : m.records.size ≤ (m.insert record).2.records.size := by
        simp only [MemoryLog.insert]
        split <;> simp
      refine ⟨commits ++ [(m.records.size + 1, record)], later_concat inserted rfl grown, ?_⟩
      simp [Record.refusedBy, Medium.durable, addRecord, known, Record.keptAs]
  · replace holds : t.Holds commits := holds
    by_cases refused : record.header.accuracy.isNaN = true ∨ record.hash ∈ hashesIn commits.records
    · obtain ⟨-, inserted, last⟩ := holds.insert_of_not refused
      have grown : t.lastSeq ≤ (t.insert record).2.lastSeq := by omega
      refine ⟨commits, .of_holds inserted rfl grown, ?_⟩
      · rcases refused with nan | known
        · simp [Record.refusedBy, Medium.durable, nan]
        · simp [addRecord, known]
    · obtain ⟨numeric, fresh⟩ := not_or.mp refused
      obtain ⟨-, inserted, last⟩ :=
        holds.insert_of_new (by simpa using numeric) fresh nonNull
      have grown : t.lastSeq ≤ (t.insert record).2.lastSeq := by omega
      refine ⟨commits ++ [(t.lastSeq + 1, record.tabled)], later_concat inserted rfl grown, ?_⟩
      have renamed : record.tabled.hash = record.hash := rfl
      simp [Record.refusedBy, Medium.durable, numeric, addRecord, renamed, fresh, Record.keptAs]

omit holds in
theorem write_snd {batch : List Record} :
    (s.write batch).2 = batch.foldl (fun s record => (s.insert record).2) s := by
  have folded : ∀ (summary : WriteSummary) (s : Store), (batch.foldl
      (fun state record => (state.1.count (state.2.insert record).1, (state.2.insert record).2))
      (summary, s)).2 = batch.foldl (fun s record => (s.insert record).2) s := by
    induction batch with
    | nil => exact fun _ _ => rfl
    | cons record rest ih => exact fun summary s => ih _ _
  exact folded .zero s

/-- A batch: the store adds the records that it does not refuse, in the form in which it keeps
them. -/
theorem Holds.write {batch : List Record} (nonNull : ∀ record ∈ batch, record.hash ≠ Hash.null) :
    ∃ after, s.Later commits (s.write batch).2 after ∧
      after.records = addRecords commits.records ((batch.filter fun record =>
        !record.refusedBy s.medium.durable).map (Record.keptAs s.medium.durable)) := by
  rw [write_snd]
  induction batch generalizing s commits with
  | nil => exact ⟨commits, .refl holds, rfl⟩
  | cons record rest ih =>
    obtain ⟨middle, first, added⟩ := holds.insert (nonNull record List.mem_cons_self)
    obtain ⟨after, later, all⟩ := ih (s := (s.insert record).2) first.holds
      fun record member => nonNull record (List.mem_cons_of_mem _ member)
    refine ⟨after, first.trans later, ?_⟩
    rw [first.durable, added] at all
    rw [all]
    by_cases refused : record.refusedBy s.medium.durable = true <;>
      simp [addRecords, refused]

/-- A new snapshot has the next number of the registry. Its cutoff shows everything that is committed
and is no greater than that takes, and it lists the begins and the ends of all links. -/
theorem Holds.createSnapshot_parts : ∃ cutoff begins ends,
    s.createSnapshot = .ok (⟨s.registry.create.1, cutoff, begins, ends⟩,
        { s with registry := s.registry.create.2 }) ∧
      (∀ bound, cutoff ≤ bound ↔ ∀ commit ∈ commits, commit.1 ≤ bound) ∧
      (begins.map Prod.fst).Nodup ∧
      (∀ hash prev, (hash, prev) ∈ begins ↔ commits.links.Begins hash prev) ∧
      ∀ hash, hash ∈ ends ↔ commits.links.Ends hash := by
  rcases s with ⟨m | t, registry⟩
  · replace holds : m.Holds commits := holds
    have frontier := holds.graph.frontier
    exact ⟨_, _, _, rfl, fun _ => holds.size_le_iff, Frontier.nodup_beginEdges,
      fun _ _ => frontier.mem_beginEdges, fun _ => frontier.mem_endList⟩
  · replace holds : t.Holds commits := holds
    obtain ⟨parts, partsRead, nodup, begins⟩ := holds.beginEdges_eq
    obtain ⟨ends, endsRead, ended⟩ := holds.ends_eq
    refine ⟨t.greatestSeq, parts, ends, ?_, fun _ => holds.greatestSeq_le_iff, nodup, begins, ended⟩
    simp only [createSnapshot, picture, partsRead, endsRead]
    rfl

theorem Holds.createSnapshot_cutoff : ∃ picture registry,
    s.createSnapshot = .ok (picture, { s with registry }) ∧
      (∀ bound, picture.cutoff ≤ bound ↔ ∀ commit ∈ commits, commit.1 ≤ bound) ∧
      (Frontier.ofParts picture.begins picture.ends).Describes commits.links := by
  obtain ⟨cutoff, begins, ends, created, least, nodup, begun, ended⟩ := holds.createSnapshot_parts
  exact ⟨_, _, created, least, Frontier.describes_ofParts nodup begun ended⟩

theorem Holds.number_le_last {commit : Nat × Record} (member : commit ∈ commits) :
    commit.1 ≤ s.medium.last := by
  rcases s with ⟨m | t, registry⟩
  · exact (MemoryLog.Holds.toTracks holds).number_le member
  · exact Table.Holds.bounded holds commit member

/-- A new snapshot hides nothing. -/
theorem Holds.createSnapshot_eq : ∃ picture registry,
    s.createSnapshot = .ok (picture, { s with registry }) ∧ picture.cutoff ≤ s.medium.last ∧
      commits.upTo picture.cutoff = commits.records ∧
      (Frontier.ofParts picture.begins picture.ends).Describes commits.links := by
  obtain ⟨picture, registry, created, least, described⟩ := holds.createSnapshot_cutoff
  exact ⟨picture, registry, created, (least _).mpr fun _ => holds.number_le_last,
    Commits.upTo_eq_records ((least _).mp (Nat.le_refl _)), described⟩

/-! ## Queries under a cutoff -/

theorem Holds.find_eq {hash : Hash} : s.find cutoff hash =
    .ok (((commits.upTo cutoff).find? fun record => record.hash == hash).map Record.metadata) := by
  have proper := Commits.proper_upTo cutoff holds.proper
  rcases s with ⟨m | t, registry⟩
  · replace holds : m.Holds commits := holds
    rw [← holds.visible?_eq]
    rfl
  · replace holds : t.Holds commits := holds
    simp only [find]
    cases visible : t.visible? cutoff hash with
    | none =>
      have hidden : (commits.upTo cutoff).find? (fun record => record.hash == hash) = none := by
        rw [Option.eq_none_iff_forall_not_mem]
        intro record found
        obtain ⟨member, same⟩ := (find?_eq_some proper.nodup).mp found
        obtain ⟨number, listed, low⟩ := Commits.mem_upTo.mp member
        have := holds.visible?_eq_some.mpr ⟨number, record, listed, low, same, rfl⟩
        simp [visible] at this
      rw [hidden]
      rfl
    | some row =>
      obtain ⟨number, record, member, low, same, rfl⟩ := holds.visible?_eq_some.mp visible
      have found := (find?_eq_some proper.nodup).mpr ⟨Commits.mem_upTo.mpr ⟨number, member, low⟩, same⟩
      rw [found]
      simp only [Row.metadata_ofRecord]
      rfl

theorem Holds.holds_eq {hash : Hash} :
    s.holds cutoff hash = ((commits.upTo cutoff).find? fun record => record.hash == hash).isSome := by
  have found : s.find cutoff hash = _ := holds.find_eq
  rcases s with ⟨m | t, registry⟩
  · simp only [find, Except.ok.injEq] at found
    rw [← Option.isSome_map (f := Record.metadata), ← found, Option.isSome_map]
    rfl
  · simp only [find] at found
    simp only [Store.holds]
    cases visible : t.visible? cutoff hash with
    | none =>
      simp only [visible, Except.ok.injEq] at found
      rw [← Option.isSome_map (f := Record.metadata), ← found]
      rfl
    | some row =>
      obtain ⟨number, record, -, -, -, rfl⟩ := Table.Holds.visible?_eq_some holds |>.mp visible
      simp only [visible, Row.metadata_ofRecord] at found
      rw [← Option.isSome_map (f := Record.metadata), ← Except.ok.inj found]
      rfl

theorem Holds.next_eq {hash : Hash} : s.next cutoff hash =
    .ok (((commits.upTo cutoff).filter fun record => record.prev == hash).map Record.metadata) := by
  rcases s with ⟨m | t, registry⟩
  · simp only [next, (MemoryLog.Holds.toTracks holds).next_eq]
  · exact Table.Holds.next_eq holds

omit holds in
/-- A view under which the visible records are looked up and filtered. -/
theorem view_eq_of_visible {visible : List Record}
    (contained : ∀ hash, s.holds cutoff hash = (visible.find? fun record => record.hash == hash).isSome)
    (found : ∀ hash, s.find cutoff hash =
      .ok ((visible.find? fun record => record.hash == hash).map Record.metadata))
    (next : ∀ hash, s.next cutoff hash =
      .ok ((visible.filter fun record => record.prev == hash).map Record.metadata)) :
    s.view cutoff f = (linksOf visible).view f := by
  simp only [view, Edges.view, GraphView.mk.injEq, and_true]
  refine ⟨?_, ?_, ?_⟩
  · funext hash
    rw [contained, prevOf_linksOf, Option.isSome_map]
  · funext hash
    rw [found, prevOf_linksOf]
    cases visible.find? fun record => record.hash == hash <;> rfl
  · funext hash
    simp [next, linksOf, Edges.nextOf, LogGraph.edgeOf, List.filter_map, Record.metadata, Function.comp_def]

theorem Holds.view_eq : s.view cutoff f = (linksOf (commits.upTo cutoff)).view f :=
  view_eq_of_visible (fun _ => holds.holds_eq) (fun _ => holds.find_eq) fun _ => holds.next_eq

/-- A view shows the links of the records that its cutoff does not hide. -/
theorem Holds.view_shows (described : f.Describes (linksOf (commits.upTo cutoff))) :
    (s.view cutoff f).Shows (linksOf (commits.upTo cutoff)) :=
  holds.view_eq ▸ Edges.view_shows described

end Store

end HashLog
