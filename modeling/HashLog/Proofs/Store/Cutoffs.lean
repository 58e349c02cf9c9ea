import HashLog.Proofs.Store.Listings
/-!
Cutoffs on a store that goes on, whatever hashes its records have, the null hash included. A commit
takes a number beyond all that were taken before, so no write changes what shows under a cutoff that
was not beyond the last one (`view_write`), and a store that only this library filled can always be
asked for a snapshot (`Filed.createSnapshot_ok`).
-/
namespace HashLog

/-- A medium that only this library filled: the indexes of a log in memory are those of its records,
and every row of a table reads back and has a number that was taken. -/
def Medium.Filed : Medium → Prop
  | memory m => ∃ commits, m.Tracks commits
  | table t => ∃ commits, t.Lists commits ∧ ∀ commit ∈ commits, commit.1 ≤ t.lastSeq

namespace Table

variable {t : Table} {record : Record} {hash : Hash} {cutoff : Nat} {commits : Commits}

theorem insert_snd (t : Table) (record : Record) : ∃ rows, (t.insert record).2.rows = t.rows ++ rows ∧
    (t.insert record).2.lastSeq = t.lastSeq + 1 ∧ ∀ row ∈ rows, row.seq = t.lastSeq + 1 := by
  rw [insert_eq]
  split
  · exact ⟨[], (List.append_nil _).symm, rfl, by simp⟩
  · exact ⟨_, rfl, rfl, by simp [Row.ofRecord]⟩

/-- A row that is added shows under no cutoff that was not beyond the last number. -/
theorem visible?_insert (old : cutoff ≤ t.lastSeq) :
    (t.insert record).2.visible? cutoff hash = t.visible? cutoff hash := by
  obtain ⟨rows, grown, -, above⟩ := t.insert_snd record
  rw [visible?, visible?, find?, find?, grown, List.find?_append]
  cases t.rows.find? fun row => row.hash == hash.toList with
  | some row => rfl
  | none =>
    rw [Option.none_or, Option.filter_none, Option.filter_eq_none_iff]
    intro row found low
    have number := above row (List.mem_of_find?_eq_some found)
    simp only [decide_eq_true_eq] at low
    omega

theorem next_insert (old : cutoff ≤ t.lastSeq) :
    (t.insert record).2.next cutoff hash = t.next cutoff hash := by
  obtain ⟨rows, grown, -, above⟩ := t.insert_snd record
  have hidden : rows.filter (fun row => row.seq ≤ cutoff) = [] := by
    apply List.filter_eq_nil_iff.mpr
    intro row member low
    have number := above row member
    simp only [decide_eq_true_eq] at low
    omega
  rw [next, next, upTo, upTo, grown, List.filter_append, hidden, List.append_nil]

/-- A scan of rows that read back finds the parts of a snapshot. -/
theorem Lists.picture_ok (lists : t.Lists commits) :
    (∃ begins, t.beginEdges = .ok begins) ∧ ∃ ends, t.ends = .ok ends := by
  have reads : ∀ row ∈ t.rows, (∃ hash, Row.hashColumn row.hash = .ok hash) ∧
      ∃ prev, Row.hashColumn row.prev = .ok prev := by
    intro row member
    rw [lists.rows] at member
    obtain ⟨commit, -, rfl⟩ := List.mem_map.mp member
    exact ⟨⟨_, Row.hashColumn_toList⟩, ⟨_, Row.hashColumn_toList⟩⟩
  constructor
  · apply exists_mapM_ok
    intro row member
    obtain ⟨⟨hash, named⟩, prev, follows⟩ := reads row (List.mem_of_mem_filter member)
    exact ⟨(hash, prev), by rw [named, follows]; rfl⟩
  · exact exists_mapM_ok fun row member => (reads row (List.mem_of_mem_filter member)).1

end Table

namespace Store

/-- A store that only this library filled. -/
def Filed (s : Store) : Prop := s.medium.Filed

variable {s s' : Store} {record : Record} {cutoff : Nat} {f : Frontier}

theorem filed_inMemory : inMemory.Filed := ⟨[], MemoryLog.tracks_empty⟩

theorem filed_durable : durable.Filed := ⟨[], Table.holds_empty.lists, by simp⟩

theorem Filed.congr (filed : s.Filed) (same : s'.medium = s.medium) : s'.Filed := by
  rwa [Filed, same]

/-- Every record of such a store reads back. -/
theorem Filed.lists (filed : s.Filed) : s.Lists s.log := by
  have some : ∃ log, s.Lists log := by
    rcases s with ⟨m | t, registry⟩
    · obtain ⟨commits, tracks⟩ := filed
      have indexed : m.Indexed := by rw [MemoryLog.Indexed, ← tracks.placed]; exact tracks.seqs
      exact ⟨_, indexed, rfl⟩
    · obtain ⟨commits, lists, -⟩ := filed
      exact ⟨_, commits, lists, rfl⟩
  obtain ⟨log, lists⟩ := some
  rwa [lists.log_eq]

theorem Filed.insert (filed : s.Filed) (record : Record) : (s.insert record).2.Filed := by
  rcases s with ⟨m | t, registry⟩
  · obtain ⟨commits, tracks⟩ := filed
    change ∃ commits, (m.insert record).2.Tracks commits
    by_cases known : record.hash ∈ hashesIn commits.records
    · rw [tracks.insert_of_mem known]
      exact ⟨commits, tracks⟩
    · exact ⟨_, (tracks.insert_of_not_mem known).2⟩
  · obtain ⟨commits, lists, bounded⟩ := filed
    obtain ⟨rows, grown, last, above⟩ := t.insert_snd record
    obtain ⟨after, listed, -⟩ := lists.insert record
    refine ⟨after, listed, fun commit member => ?_⟩
    have row : Table.rowOf commit ∈ (t.insert record).2.rows := by
      rw [listed.rows]
      exact List.mem_map_of_mem member
    change (Table.rowOf commit).seq ≤ (t.insert record).2.lastSeq
    rw [grown, List.mem_append, lists.rows, List.mem_map] at row
    rw [last]
    rcases row with ⟨old, listed, same⟩ | new
    · rw [← same]
      exact Nat.le_succ_of_le (bounded old listed)
    · exact Nat.le_of_eq (above _ new)

theorem last_le_insert : s.medium.last ≤ (s.insert record).2.medium.last := by
  rcases s with ⟨m | t, registry⟩
  · change m.records.size ≤ (m.insert record).2.records.size
    unfold MemoryLog.insert
    split <;> simp
  · obtain ⟨-, -, last, -⟩ := t.insert_snd record
    exact Nat.le_trans (Nat.le_succ _) (Nat.le_of_eq last.symm)

/-- What shows under a cutoff is the same after a record was offered. -/
theorem view_insert (filed : s.Filed) (old : cutoff ≤ s.medium.last) :
    (s.insert record).2.view cutoff f = s.view cutoff f := by
  rcases s with ⟨m | t, registry⟩
  · obtain ⟨commits, tracks⟩ := filed
    have tracked : Store.Tracks ⟨.memory m, registry⟩ commits := ⟨m, rfl, tracks⟩
    exact (tracked.insert record).view_eq tracked old
  · have visible (hash) : (t.insert record).2.visible? cutoff hash = t.visible? cutoff hash :=
      Table.visible?_insert old
    have next (hash) : (t.insert record).2.next cutoff hash = t.next cutoff hash :=
      Table.next_insert old
    have held : (Store.mk (.table (t.insert record).2) registry).holds cutoff =
        (Store.mk (.table t) registry).holds cutoff := by
      funext hash
      exact congrArg Option.isSome (visible hash)
    simp only [Store.view, Store.insert, held, Store.find, Store.next, visible, next]

theorem Filed.write (filed : s.Filed) (batch : List Record) : (s.write batch).2.Filed := by
  rw [write_snd]
  induction batch generalizing s with
  | nil => exact filed
  | cons record rest ih => exact ih (filed.insert record)

theorem last_le_write (s : Store) (batch : List Record) :
    s.medium.last ≤ (s.write batch).2.medium.last := by
  rw [write_snd]
  induction batch generalizing s with
  | nil => exact Nat.le_refl _
  | cons record rest ih => exact Nat.le_trans last_le_insert (ih _)

/-- No write changes what shows under a cutoff. -/
theorem view_write (filed : s.Filed) (old : cutoff ≤ s.medium.last) (batch : List Record) :
    (s.write batch).2.view cutoff f = s.view cutoff f := by
  rw [write_snd]
  induction batch generalizing s with
  | nil => rfl
  | cons record rest ih =>
    exact (ih (filed.insert record) (Nat.le_trans old last_le_insert)).trans (view_insert filed old)

/-- A snapshot can always be opened; its cutoff is not beyond the last number. -/
theorem Filed.createSnapshot_ok (filed : s.Filed) : ∃ picture registry,
    s.createSnapshot = .ok (picture, { s with registry }) ∧ picture.cutoff ≤ s.medium.last := by
  rcases s with ⟨m | t, registry⟩
  · obtain ⟨opened, created⟩ := createSnapshot_memory (s := ⟨.memory m, registry⟩) rfl
    exact ⟨_, opened, created, Nat.le_refl _⟩
  · obtain ⟨commits, lists, bounded⟩ := filed
    obtain ⟨⟨begins, begun⟩, ends, ended⟩ := lists.picture_ok
    refine ⟨⟨registry.create.1, t.greatestSeq, begins, ends⟩, registry.create.2, ?_, ?_⟩
    · simp only [createSnapshot, picture, begun, ended]
      rfl
    · exact lists.greatestSeq_le_iff.mpr bounded

end Store

end HashLog
