import HashLog.Proofs.Store.Held
/-!
What a log in memory keeps, whatever the hashes of its records are, the null hash included. Its graph
leaves null hashes out, but its index by hash does not (`Indexed`), so every record that was written is
read back under its hash and stays what it is.
-/
namespace HashLog

variable {m : MemoryLog} {s s' : Store} {record : Record} {hash : Hash}

namespace MemoryLog

/-- The index by hash gives the places of all records. -/
def Indexed (m : MemoryLog) : Prop := (Commits.byPlace m.records.toList).IndexedBy m.seqs

theorem indexed_empty : empty.Indexed := by
  intro hash number
  simp [empty, Commits.byPlace]

theorem Indexed.contains_iff (indexed : m.Indexed) :
    m.seqs.contains hash = true ↔ hash ∈ hashesIn m.records.toList := by
  rw [Commits.IndexedBy.contains_iff indexed, Commits.records_byPlace]

theorem Indexed.insert (indexed : m.Indexed) (record : Record) : (m.insert record).2.Indexed ∧
    (m.insert record).2.records.toList = addRecord m.records.toList record := by
  unfold MemoryLog.insert addRecord
  by_cases known : record.hash ∈ hashesIn m.records.toList
  · rw [if_pos (indexed.contains_iff.mpr known), if_pos known]
    exact ⟨indexed, rfl⟩
  · rw [if_neg (mt indexed.contains_iff.mp known), if_neg known]
    refine ⟨?_, Array.toList_push⟩
    have fresh : record.hash ∉ hashesIn (Commits.byPlace m.records.toList).records := by
      rwa [Commits.records_byPlace]
    have placed := Commits.IndexedBy.insert indexed fresh (m.records.size + 1)
    simpa [Indexed, Commits.byPlace_concat] using placed

theorem Indexed.find?_of_mem (indexed : m.Indexed) (member : record ∈ m.records.toList) :
    m.find? record.hash = some record := by
  obtain ⟨place, found⟩ := List.mem_iff_getElem?.mp member
  have listed : (place + 1, record) ∈ Commits.byPlace m.records.toList :=
    Commits.mem_byPlace.mpr ⟨Nat.succ_pos _, found⟩
  have placed : m.seqs[record.hash]? = some (place + 1) :=
    (indexed record.hash (place + 1)).mpr ⟨record, listed, rfl⟩
  rw [find?, placed]
  simpa using found

theorem Indexed.hash_of_find? (indexed : m.Indexed) (found : m.find? hash = some record) :
    record.hash = hash := by
  unfold find? at found
  split at found
  · rename_i place placed
    obtain ⟨other, listed, named⟩ := (indexed hash place).mp placed
    obtain ⟨-, here⟩ := Commits.mem_byPlace.mp listed
    rw [Array.getElem?_toList, found, Option.some.injEq] at here
    exact here ▸ named
  · cases found

end MemoryLog

namespace Store

theorem durable_insert : (s.insert record).2.medium.durable = s.medium.durable := by
  unfold Store.insert
  cases s.medium <;> rfl

theorem durable_write (s : Store) (batch : List Record) :
    (s.write batch).2.medium.durable = s.medium.durable := by
  rw [write_snd]
  induction batch generalizing s with
  | nil => rfl
  | cons record rest ih => exact (ih _).trans durable_insert

/-- A store in memory whose index by hash gives the places of all records. -/
def Indexed (s : Store) : Prop := ∃ m, s.medium = .memory m ∧ m.Indexed

theorem indexed_inMemory : inMemory.Indexed := ⟨.empty, rfl, MemoryLog.indexed_empty⟩

theorem Indexed.congr (indexed : s.Indexed) (same : s'.medium = s.medium) : s'.Indexed := by
  rwa [Indexed, same]

private theorem log_memory (memory : s.medium = .memory m) : s.log = m.records.toList := by
  rw [log, readAll, memory]

private theorem Indexed.insert (indexed : s.Indexed) (record : Record) :
    (s.insert record).2.Indexed ∧ (s.insert record).2.log = addRecord s.log record := by
  obtain ⟨m, memory, index⟩ := indexed
  have inserted : (s.insert record).2.medium = .memory (m.insert record).2 := by
    rw [Store.insert, memory]
  obtain ⟨after, added⟩ := index.insert record
  refine ⟨⟨_, inserted, after⟩, ?_⟩
  rw [log_memory inserted, log_memory memory, added]

/-- A batch adds the records whose hash is new, and the first of each hash only. -/
theorem Indexed.write (indexed : s.Indexed) (batch : List Record) :
    (s.write batch).2.Indexed ∧ (s.write batch).2.log = addRecords s.log batch := by
  rw [write_snd]
  induction batch generalizing s with
  | nil => exact ⟨indexed, rfl⟩
  | cons record rest ih =>
    obtain ⟨after, added⟩ := indexed.insert record
    obtain ⟨last, others⟩ := ih after
    rw [added] at others
    exact ⟨last, others⟩

/-- A record that is there is read back as it is. -/
theorem Indexed.read_eq (indexed : s.Indexed) (member : record ∈ s.log) :
    s.read [record.hash] = .ok [record] := by
  obtain ⟨m, memory, index⟩ := indexed
  rw [log_memory memory] at member
  rw [read, memory]
  simp [index.find?_of_mem member]

/-! ## Growth -/

/-- A store in memory that tracks these commits. -/
def Tracks (s : Store) (commits : Commits) : Prop := ∃ m, s.medium = .memory m ∧ m.Tracks commits

/-- A later state of a store in memory: commits were added under new numbers. -/
def Grows (s : Store) (commits : Commits) (s' : Store) : Prop :=
  ∃ more, s'.Tracks (commits ++ more) ∧ ∀ commit ∈ more, s.medium.last < commit.1

variable {commits : Commits} {cutoff : Nat} {f : Frontier}

theorem tracks_inMemory : inMemory.Tracks [] := ⟨.empty, rfl, MemoryLog.tracks_empty⟩

theorem Grows.of_tracks (tracks : s'.Tracks commits) : s.Grows commits s' :=
  ⟨[], by simpa using tracks, by simp⟩

theorem Tracks.number_le_last (tracks : s.Tracks commits) {commit : Nat × Record}
    (member : commit ∈ commits) : commit.1 ≤ s.medium.last := by
  obtain ⟨m, memory, log⟩ := tracks
  rw [memory]
  exact log.number_le member

theorem Tracks.last_le_iff {bound : Nat} (tracks : s.Tracks commits) :
    s.medium.last ≤ bound ↔ ∀ commit ∈ commits, commit.1 ≤ bound := by
  obtain ⟨m, memory, log⟩ := tracks
  rw [memory]
  exact log.size_le_iff

theorem Tracks.last_le (tracks : s.Tracks commits) {more : Commits} (after : s'.Tracks (commits ++ more)) :
    s.medium.last ≤ s'.medium.last :=
  tracks.last_le_iff.mpr fun _ member => after.number_le_last (List.mem_append_left more member)

theorem Tracks.readAll_eq (tracks : s.Tracks commits) : s.readAll = .ok commits.records := by
  obtain ⟨m, memory, log⟩ := tracks
  rw [readAll, memory, log.records_eq]

theorem Tracks.find_ok (tracks : s.Tracks commits) (hash : Hash) : ∃ found, s.find cutoff hash = .ok found := by
  obtain ⟨m, memory, -⟩ := tracks
  exact ⟨_, by rw [find, memory]⟩

theorem Tracks.next_ok (tracks : s.Tracks commits) (hash : Hash) : ∃ found, s.next cutoff hash = .ok found := by
  obtain ⟨m, memory, -⟩ := tracks
  exact ⟨_, by rw [next, memory]⟩

theorem Grows.trans {s'' : Store} (first : s.Grows commits s') (tracks : s.Tracks commits)
    (second : ∀ {more}, s'.Tracks more → s'.Grows more s'') : s.Grows commits s'' := by
  obtain ⟨more, between, above⟩ := first
  obtain ⟨further, last, beyond⟩ := second between
  refine ⟨more ++ further, by rwa [← List.append_assoc], ?_⟩
  intro commit member
  rcases List.mem_append.mp member with old | new
  · exact above commit old
  · exact Nat.lt_of_le_of_lt (tracks.last_le between) (beyond commit new)

theorem Tracks.insert (tracks : s.Tracks commits) (record : Record) : s.Grows commits (s.insert record).2 := by
  obtain ⟨m, memory, log⟩ := tracks
  have inserted : (s.insert record).2.medium = .memory (m.insert record).2 := by
    rw [Store.insert, memory]
  by_cases known : record.hash ∈ hashesIn commits.records
  · rw [log.insert_of_mem known] at inserted
    exact .of_tracks ⟨m, inserted, log⟩
  · refine ⟨_, ⟨_, inserted, (log.insert_of_not_mem known).2⟩, ?_⟩
    rw [memory]
    simp [Medium.last]

theorem Tracks.write (tracks : s.Tracks commits) (batch : List Record) :
    s.Grows commits (s.write batch).2 := by
  rw [write_snd]
  induction batch generalizing s commits with
  | nil => exact .of_tracks tracks
  | cons record rest ih => exact (tracks.insert record).trans tracks fun tracks => ih tracks

theorem Tracks.view_eq (tracks : s.Tracks commits) :
    s.view cutoff f = (linksOf (commits.upTo cutoff)).view f := by
  obtain ⟨m, memory, log⟩ := tracks
  apply view_eq_of_visible
  · intro hash
    rw [Store.holds, memory, ← log.visible?_eq]
  · intro hash
    rw [Store.find, memory, ← log.visible?_eq]
  · intro hash
    rw [Store.next, memory, ← log.next_eq]

/-- A view of a store in memory shows what it showed. -/
theorem Grows.view_eq (grows : s.Grows commits s') (tracks : s.Tracks commits)
    (old : cutoff ≤ s.medium.last) : s'.view cutoff f = s.view cutoff f := by
  obtain ⟨more, after, above⟩ := grows
  rw [after.view_eq, tracks.view_eq,
    Commits.upTo_append fun commit member => Nat.lt_of_le_of_lt old (above commit member)]

end Store

end HashLog
