import HashLog.Store.Basic
import HashLog.Proofs.Graph.Shown
/-!
Logs as lists of records. A store commits each record under a number, and a cutoff on the numbers
hides what was committed later; `upTo_append` is why such a view never changes. Committing keeps the
first record of a hash, so the links of a log grow exactly as those of a graph that takes in the
same records.
-/
namespace HashLog

/-- The links of records. -/
def linksOf (records : List Record) : Edges := records.map LogGraph.edgeOf

/-- The hashes of records. -/
def hashesIn (records : List Record) : List Hash := records.map Record.hash

/-- Adds a record to a log unless its hash is there. -/
def addRecord (log : List Record) (record : Record) : List Record :=
  if record.hash ∈ hashesIn log then log else log ++ [record]

/-- Adds records in order. -/
def addRecords (log records : List Record) : List Record := records.foldl addRecord log

variable {log batch : List Record} {record : Record} {hash prev : Hash}

@[simp] theorem known_linksOf : (linksOf batch).known = hashesIn batch := by
  simp [linksOf, Edges.known, hashesIn, LogGraph.edgeOf, Function.comp_def]

@[simp] theorem linksOf_append {more : List Record} :
    linksOf (batch ++ more) = linksOf batch ++ linksOf more := by simp [linksOf]

@[simp] theorem linksOf_singleton : linksOf [record] = [(record.hash, record.prev)] := rfl

@[simp] theorem hashesIn_append {more : List Record} :
    hashesIn (batch ++ more) = hashesIn batch ++ hashesIn more := by simp [hashesIn]

theorem mem_hashesIn : hash ∈ hashesIn batch ↔ ∃ record ∈ batch, record.hash = hash := by
  simp [hashesIn]

theorem mem_linksOf :
    (hash, prev) ∈ linksOf batch ↔ ∃ record ∈ batch, record.hash = hash ∧ record.prev = prev := by
  simp [linksOf, LogGraph.edgeOf]

theorem prevOf_linksOf :
    (linksOf batch).prevOf hash = (batch.find? fun record => record.hash == hash).map Record.prev := by
  induction batch with
  | nil => rfl
  | cons record rest ih =>
    have step : linksOf (record :: rest) = (record.hash, record.prev) :: linksOf rest := rfl
    simp only [Edges.prevOf, step, List.lookup_cons, List.find?_cons] at ih ⊢
    rw [Bool.beq_comm]
    split
    · rfl
    · exact ih

theorem linksOf_addRecord :
    linksOf (addRecord log record) = (linksOf log).add (LogGraph.edgeOf record) := by
  by_cases known : record.hash ∈ hashesIn log <;> simp [addRecord, Edges.add, LogGraph.edgeOf, known]

theorem linksOf_addRecords :
    linksOf (addRecords log batch) = (linksOf log).addAll (batch.map LogGraph.edgeOf) := by
  induction batch generalizing log with
  | nil => rfl
  | cons record rest ih =>
    simp only [addRecords, Edges.addAll, List.foldl_cons, List.map_cons] at ih ⊢
    rw [ih, linksOf_addRecord]

theorem mem_addRecord {other : Record} :
    other ∈ addRecord log record ↔ other ∈ log ∨ (other = record ∧ record.hash ∉ hashesIn log) := by
  by_cases known : record.hash ∈ hashesIn log <;> simp [addRecord, known]

theorem hashesIn_addRecord :
    hash ∈ hashesIn (addRecord log record) ↔ hash ∈ hashesIn log ∨ hash = record.hash := by
  by_cases known : record.hash ∈ hashesIn log
  · have absorbed : hash = record.hash → hash ∈ hashesIn log := fun same => same ▸ known
    simpa [addRecord, known] using absorbed
  · rw [addRecord, if_neg known, hashesIn_append, List.mem_append]
    simp [hashesIn, eq_comm]

theorem hashesIn_addRecords :
    hash ∈ hashesIn (addRecords log batch) ↔ hash ∈ hashesIn log ∨ hash ∈ hashesIn batch := by
  induction batch generalizing log with
  | nil => simp [addRecords, hashesIn]
  | cons record rest ih =>
    rw [addRecords, List.foldl_cons, ← addRecords, ih, hashesIn_addRecord]
    simp [hashesIn, or_assoc, eq_comm]

/-- Adding records to a log repeats no hash. -/
theorem nodup_addRecords (nodup : (hashesIn log).Nodup) : (hashesIn (addRecords log batch)).Nodup := by
  induction batch generalizing log with
  | nil => exact nodup
  | cons record rest ih =>
    refine ih ?_
    unfold addRecord
    split
    · exact nodup
    · rename_i new
      exact hashesIn_append ▸ List.concat_eq_append ▸ nodup.concat new

theorem addRecords_append {more : List Record} :
    addRecords log (batch ++ more) = addRecords (addRecords log batch) more := by
  simp [addRecords, List.foldl_append]

theorem prefix_addRecords : log <+: addRecords log batch := by
  induction batch generalizing log with
  | nil => exact List.prefix_rfl
  | cons record rest ih =>
    have first : log <+: addRecord log record := by
      unfold addRecord
      split
      · exact List.prefix_rfl
      · exact List.prefix_append _ _
    exact first.trans ih

/-- What a batch adds to a log is part of the batch. -/
theorem addRecords_eq_append (log batch : List Record) :
    ∃ gained, addRecords log batch = log ++ gained ∧ gained.Sublist batch := by
  induction batch generalizing log with
  | nil => exact ⟨[], (List.append_nil _).symm, .slnil⟩
  | cons record rest ih =>
    obtain ⟨gained, grown, part⟩ := ih (addRecord log record)
    rw [addRecords, List.foldl_cons, ← addRecords, grown, addRecord]
    split
    · exact ⟨gained, rfl, part.cons record⟩
    · exact ⟨record :: gained, by rw [List.append_assoc, List.singleton_append], part.cons_cons record⟩

theorem subset_addRecords : log ⊆ addRecords log batch := prefix_addRecords.subset

theorem mem_addRecords {other : Record} (member : other ∈ addRecords log batch) :
    other ∈ log ∨ other ∈ batch := by
  induction batch generalizing log with
  | nil => exact Or.inl member
  | cons record rest ih =>
    rcases ih member with old | new
    · rcases mem_addRecord.mp old with old | ⟨rfl, -⟩
      · exact Or.inl old
      · exact Or.inr List.mem_cons_self
    · exact Or.inr (List.mem_cons_of_mem _ new)

/-- A hash has one record at most where none is repeated. -/
theorem find?_eq_some (nodup : (linksOf batch).known.Nodup) :
    batch.find? (fun record => record.hash == hash) = some record ↔
      record ∈ batch ∧ record.hash = hash := by
  constructor
  · intro found
    exact ⟨List.mem_of_find?_eq_some found, by simpa using List.find?_some found⟩
  · rintro ⟨member, same⟩
    have present : (batch.find? fun record => record.hash == hash).isSome = true :=
      List.find?_isSome.mpr ⟨record, member, by simpa using same⟩
    obtain ⟨first, found⟩ := Option.isSome_iff_exists.mp present
    have named : first.hash = hash := by simpa using List.find?_some found
    have unique : (batch.map Record.hash).Nodup := by
      simpa [hashesIn] using nodup
    rw [found, List.inj_on_of_nodup_map unique (List.mem_of_find?_eq_some found) member
      (named.trans same.symm)]

/-- Records under the numbers that they were committed with, in commit order. -/
abbrev Commits := List (Nat × Record)

namespace Commits

/-- The records of a log. -/
def records (commits : Commits) : List Record := commits.map Prod.snd

/-- The links of a log. -/
def links (commits : Commits) : Edges := linksOf commits.records

/-- The records that a cutoff does not hide. -/
def upTo (commits : Commits) (cutoff : Nat) : List Record :=
  records (commits.filter fun commit => commit.1 ≤ cutoff)

variable {commits : Commits} {cutoff number last : Nat}

@[simp] theorem records_append {more : Commits} :
    records (commits ++ more) = commits.records ++ more.records := by simp [records]

@[simp] theorem records_singleton : records [(number, record)] = [record] := rfl

theorem mem_records : record ∈ commits.records ↔ ∃ number, (number, record) ∈ commits := by
  simp [records]

theorem mem_upTo :
    record ∈ commits.upTo cutoff ↔ ∃ number, (number, record) ∈ commits ∧ number ≤ cutoff := by
  simp [upTo, records]

/-- Records committed under numbers beyond the cutoff do not show. -/
theorem upTo_append {more : Commits} (later : ∀ commit ∈ more, cutoff < commit.1) :
    upTo (commits ++ more) cutoff = commits.upTo cutoff := by
  have hidden : more.filter (fun commit => commit.1 ≤ cutoff) = [] := by
    simpa using later
  rw [upTo, List.filter_append, hidden, List.append_nil, upTo]

theorem upTo_eq_records (bound : ∀ commit ∈ commits, commit.1 ≤ cutoff) :
    commits.upTo cutoff = commits.records := by
  have all : commits.filter (fun commit => commit.1 ≤ cutoff) = commits :=
    List.filter_eq_self.mpr (by simpa using bound)
  rw [upTo, all]

theorem upTo_sublist : (commits.upTo cutoff).Sublist commits.records :=
  List.filter_sublist.map Prod.snd

theorem known_upTo_sublist : (linksOf (commits.upTo cutoff)).known.Sublist commits.links.known :=
  (upTo_sublist.map LogGraph.edgeOf).map Prod.fst

/-- What a cutoff shows of a proper log is proper. -/
theorem proper_upTo (cutoff : Nat) (proper : commits.links.Proper) :
    (linksOf (commits.upTo cutoff)).Proper :=
  ⟨proper.nodup.sublist known_upTo_sublist,
    fun member => proper.no_null (known_upTo_sublist.subset member)⟩

end Commits

end HashLog
