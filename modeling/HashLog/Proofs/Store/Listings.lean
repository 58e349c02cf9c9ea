import HashLog.Proofs.Store.Views
/-!
The log of a store, whatever hashes its records have, the null hash included. It is read back whole,
a batch adds the records of new hashes to it in the form in which the store keeps them
(`Lists.write`), and a read finds nothing that is not in it.
-/
namespace HashLog

/-- The log kept in a medium, each record of which is read back as it is. -/
def Medium.Lists : Medium → List Record → Prop
  | memory m, log => m.Indexed ∧ m.records.toList = log
  | table t, log => ∃ commits : Commits, t.Lists commits ∧ commits.records = log

namespace Store

/-- The log of a store. -/
def Lists (s : Store) (log : List Record) : Prop := s.medium.Lists log

variable {s s' : Store} {log : List Record}

theorem Lists.congr (lists : s.Lists log) (same : s'.medium = s.medium) : s'.Lists log := by
  rwa [Lists, same]

theorem Lists.readAll_eq (lists : s.Lists log) : s.readAll = .ok log := by
  rcases s with ⟨m | t, registry⟩
  · exact congrArg Except.ok lists.2
  · obtain ⟨commits, listed, rfl⟩ := lists
    simp only [readAll, listed.rows, List.mapM_map]
    exact mapM_ok fun commit member => Row.record_ofRecord (listed.plain commit member)

theorem Lists.readAllMetadata_eq (lists : s.Lists log) :
    s.readAllMetadata = .ok (log.map Record.metadata) := by
  rcases s with ⟨m | t, registry⟩
  · obtain ⟨-, rfl⟩ := lists
    rfl
  · obtain ⟨commits, listed, rfl⟩ := lists
    simp only [readAllMetadata, listed.rows, List.mapM_map]
    refine (mapM_ok fun commit _ => Row.metadata_ofRecord).trans ?_
    rw [Commits.records, List.map_map, Function.comp_def]

theorem Lists.log_eq (lists : s.Lists log) : s.log = log := by rw [Store.log, lists.readAll_eq]

theorem Lists.insert (lists : s.Lists log) (record : Record) : (s.insert record).2.Lists
    (if record.refusedBy s.medium.durable then log else addRecord log (record.keptAs s.medium.durable)) := by
  rcases s with ⟨m | t, registry⟩
  · obtain ⟨indexed, rfl⟩ := lists
    exact indexed.insert record
  · obtain ⟨commits, listed, rfl⟩ := lists
    exact listed.insert record

/-- A batch adds the records of new hashes, and of each hash the first one that is not refused. -/
theorem Lists.write (lists : s.Lists log) (batch : List Record) :
    (s.write batch).2.Lists (addRecords log (Record.keptOf s.medium.durable batch)) := by
  rw [write_snd]
  induction batch generalizing s log with
  | nil => exact lists
  | cons record rest ih =>
    have after := ih (lists.insert record)
    rw [durable_insert] at after
    by_cases refused : record.refusedBy s.medium.durable = true
    · simpa [Record.keptOf, refused] using after
    · simpa [Record.keptOf, refused, addRecords] using after

/-- A read finds one record for a hash at most. -/
theorem length_of_read {hashes : List Hash} {found : List Record} (read : s.read hashes = .ok found) :
    found.length ≤ hashes.length := by
  rcases s with ⟨m | t, registry⟩
  · obtain rfl := Except.ok.inj read
    exact List.length_filterMap_le _ _
  · exact (forall₂_of_mapM read).length_eq ▸ List.length_filterMap_le _ _

/-- No read fails, and a record is found under its own hash. -/
theorem Lists.read_ok (lists : s.Lists log) (hashes : List Hash) :
    ∃ found, s.read hashes = .ok found ∧ (hashesIn found).Sublist hashes := by
  have located {find : Hash → Option Record}
      (named : ∀ hash record, find hash = some record → record.hash = hash) :
      (hashesIn (hashes.filterMap find)).Sublist hashes := by
    induction hashes with
    | nil => exact .slnil
    | cons hash rest ih =>
      cases found : find hash with
      | none => simpa [found] using ih.cons hash
      | some record =>
        rw [List.filterMap_cons_some found, hashesIn, List.map_cons, named hash record found]
        exact ih.cons_cons hash
  rcases s with ⟨m | t, registry⟩
  · exact ⟨_, rfl, located fun hash record => lists.1.hash_of_find?⟩
  · obtain ⟨commits, listed, -⟩ := lists
    exact ⟨_, listed.read_eq, located fun hash record found => by simpa using List.find?_some found⟩

/-- A read finds records of the log only. -/
theorem Lists.read_subset (lists : s.Lists log) {hashes : List Hash} {found : List Record}
    (read : s.read hashes = .ok found) : found ⊆ log := by
  rcases s with ⟨m | t, registry⟩
  · obtain ⟨-, rfl⟩ := lists
    obtain rfl := Except.ok.inj read
    intro record member
    obtain ⟨hash, -, located⟩ := List.mem_filterMap.mp member
    unfold MemoryLog.find? at located
    split at located
    · exact Array.mem_toList_iff.mpr (Array.mem_of_getElem? located)
    · cases located
  · obtain ⟨commits, listed, rfl⟩ := lists
    obtain rfl := Except.ok.inj (listed.read_eq.symm.trans read)
    intro record member
    obtain ⟨hash, -, located⟩ := List.mem_filterMap.mp member
    exact List.mem_of_find?_eq_some located

end Store

end HashLog
