import HashLog.Store.Table
import HashLog.Proofs.Store.Commits
import Mathlib.Data.List.Forall2
/-!
The log in a durable table. The rows of a table that only this library wrote are the rows of its
commits, so every column reads back, and what the table finds by scanning its rows is what the links
of the commits say. A negative zero is kept as zero and a record without a numeric accuracy is not
kept at all.
-/
namespace HashLog

/-- A record as a table keeps it. -/
def Record.tabled (record : Record) : Record :=
  let accuracy := record.header.accuracy
  { record with header :=
      { record.header with accuracy := if accuracy.isZero then .zero else accuracy } }

theorem Accuracy.isZero_zero : Accuracy.zero.isZero = true := by decide

theorem Accuracy.isNaN_canonical {accuracy : Accuracy} :
    (if accuracy.isZero then Accuracy.zero else accuracy).isNaN = accuracy.isNaN := by
  by_cases zero : accuracy.isZero = true
  · have masked : accuracy.bits &&& 0x7fffffffffffffff = 0 := by simpa [isZero] using zero
    rw [if_pos zero, isNaN, isNaN, masked]
    decide
  · rw [if_neg zero]

theorem Record.tabled_tabled {record : Record} : record.tabled.tabled = record.tabled := by
  simp only [Record.tabled]
  by_cases zero : record.header.accuracy.isZero = true <;> simp [zero, Accuracy.isZero_zero]

theorem mapM_ok {α β ε : Type} {f : α → Except ε β} {g : α → β} {items : List α}
    (each : ∀ item ∈ items, f item = .ok (g item)) : items.mapM f = .ok (items.map g) := by
  induction items with
  | nil => rfl
  | cons item rest ih =>
    rw [List.mapM_cons, each item List.mem_cons_self,
      ih fun item member => each item (List.mem_cons_of_mem _ member)]
    rfl

theorem forall₂_of_mapM {α β ε : Type} {f : α → Except ε β} {items : List α} {results : List β}
    (ran : items.mapM f = .ok results) :
    List.Forall₂ (fun item result => f item = .ok result) items results := by
  induction items generalizing results with
  | nil =>
    obtain rfl := Except.ok.inj ran
    exact .nil
  | cons item rest ih =>
    rw [List.mapM_cons] at ran
    cases first : f item with
    | error error => rw [first] at ran; cases ran
    | ok head =>
      cases others : rest.mapM f with
      | error error => rw [first, others] at ran; cases ran
      | ok tail =>
        rw [first, others] at ran
        obtain rfl := Except.ok.inj ran
        exact .cons first (ih others)

theorem exists_mapM_ok {α β ε : Type} {f : α → Except ε β} {items : List α}
    (each : ∀ item ∈ items, ∃ result, f item = .ok result) : ∃ results, items.mapM f = .ok results := by
  induction items with
  | nil => exact ⟨[], rfl⟩
  | cons item rest ih =>
    obtain ⟨first, made⟩ := each item List.mem_cons_self
    obtain ⟨others, later⟩ := ih fun item member => each item (List.mem_cons_of_mem _ member)
    exact ⟨first :: others, by rw [List.mapM_cons, made, later]; rfl⟩

theorem mem_mapM_iff {α β ε : Type} {f : α → Except ε β} {items : List α} {results : List β}
    (ran : items.mapM f = .ok results) {result : β} :
    result ∈ results ↔ ∃ item ∈ items, f item = .ok result := by
  replace ran := forall₂_of_mapM ran
  induction ran with
  | nil => simp
  | cons first _ ih => simp [ih, first, eq_comm]

namespace Row

variable {record : Record} {number : Nat}

@[simp] theorem hashColumn_toList {hash : Hash} : hashColumn hash.toList = .ok hash := by
  simp [hashColumn, Hash.ofList?]

@[simp] theorem metadata_ofRecord : (ofRecord number record).metadata = .ok record.metadata := by
  simp only [metadata, ofRecord, hashColumn_toList]
  rfl

theorem record_ofRecord (plain : record.tabled = record) :
    (ofRecord number record).record = .ok record := by
  have accuracy : (ofRecord number record).accuracy = record.header.accuracy :=
    congrArg (fun r : Record => r.header.accuracy) plain
  have signed : Octets.ofList? (ofRecord number record).signature = some record.signature.toOctets :=
    Octets.ofList?_toList _
  rw [Row.record, metadata_ofRecord]
  simp only [bind, Except.bind, signed, accuracy]
  rfl

theorem ofRecord_tabled : ofRecord number record.tabled = ofRecord number record := by
  simp only [ofRecord, Record.tabled, Record.prev]
  by_cases zero : record.header.accuracy.isZero = true <;> simp [zero, Accuracy.isZero_zero]

theorem hash_ofRecord {hash : Hash} :
    ((ofRecord number record).hash == hash.toList) = (record.hash == hash) := by
  rw [Bool.eq_iff_iff, beq_iff_eq, beq_iff_eq]
  exact ⟨Hash.ext_toList, fun same => by rw [← same]; rfl⟩

theorem prev_ofRecord {hash : Hash} :
    ((ofRecord number record).prev == hash.toList) = (record.prev == hash) := by
  rw [Bool.eq_iff_iff, beq_iff_eq, beq_iff_eq]
  exact ⟨Hash.ext_toList, fun same => by rw [← same]; rfl⟩

end Row

namespace Table

variable {t : Table} {commits : Commits} {record : Record} {hash prev : Hash} {cutoff number : Nat}

/-- The row of a commit. -/
def rowOf (commit : Nat × Record) : Row := Row.ofRecord commit.1 commit.2

/-- The rows of the table are those of these commits, whatever their hashes are. -/
structure Lists (t : Table) (commits : Commits) : Prop where
  rows : t.rows = commits.map rowOf
  plain : ∀ commit ∈ commits, commit.2.tabled = commit.2

/-- The table holds these commits. -/
structure Holds (t : Table) (commits : Commits) : Prop where
  rows : t.rows = commits.map rowOf
  plain : ∀ commit ∈ commits, commit.2.tabled = commit.2
  proper : commits.links.Proper
  bounded : ∀ commit ∈ commits, commit.1 ≤ t.lastSeq

theorem holds_empty : empty.Holds [] :=
  ⟨rfl, by simp, Edges.proper_nil, by simp⟩

theorem Holds.lists (holds : t.Holds commits) : t.Lists commits := ⟨holds.rows, holds.plain⟩

theorem Lists.find?_eq (lists : t.Lists commits) : t.find? hash.toList =
    (commits.find? fun commit => commit.2.hash == hash).map rowOf := by
  rw [find?, lists.rows, List.find?_map]
  congr 2
  funext commit
  exact Row.hash_ofRecord

theorem Lists.find?_isSome (lists : t.Lists commits) :
    (t.find? hash.toList).isSome = true ↔ hash ∈ hashesIn commits.records := by
  rw [lists.find?_eq, Option.isSome_map, List.find?_isSome, mem_hashesIn]
  simp only [Commits.mem_records, beq_iff_eq, Prod.exists]
  exact ⟨fun ⟨number, record, member, same⟩ => ⟨record, ⟨number, member⟩, same⟩,
    fun ⟨record, ⟨number, member⟩, same⟩ => ⟨number, record, member, same⟩⟩

variable (holds : t.Holds commits)
include holds

private theorem Holds.find?_commit {commit : Nat × Record} :
    commits.find? (fun commit => commit.2.hash == hash) = some commit ↔
      commit ∈ commits ∧ commit.2.hash = hash := by
  constructor
  · intro found
    exact ⟨List.mem_of_find?_eq_some found, by simpa using List.find?_some found⟩
  · rintro ⟨member, same⟩
    have present : (commits.find? fun commit => commit.2.hash == hash).isSome = true :=
      List.find?_isSome.mpr ⟨commit, member, by simpa using same⟩
    obtain ⟨first, found⟩ := Option.isSome_iff_exists.mp present
    have named : first.2.hash = hash := by simpa using List.find?_some found
    have unique : (commits.map fun commit => commit.2.hash).Nodup := by
      simpa [Commits.links, Commits.records, linksOf, Edges.known, LogGraph.edgeOf,
        Function.comp_def] using holds.proper.nodup
    rw [found, List.inj_on_of_nodup_map unique (List.mem_of_find?_eq_some found) member
      (named.trans same.symm)]

/-- A row is found by its hash where the cutoff does not hide it. -/
theorem Holds.visible?_eq_some {row : Row} : t.visible? cutoff hash = some row ↔
    ∃ number record, (number, record) ∈ commits ∧ number ≤ cutoff ∧ record.hash = hash ∧
      row = Row.ofRecord number record := by
  rw [visible?, holds.lists.find?_eq, Option.filter_eq_some_iff, Option.map_eq_some_iff]
  simp only [holds.find?_commit, decide_eq_true_eq, Prod.exists]
  constructor
  · rintro ⟨⟨number, record, ⟨member, same⟩, rfl⟩, low⟩
    exact ⟨number, record, member, low, same, rfl⟩
  · rintro ⟨number, record, member, low, same, rfl⟩
    exact ⟨⟨number, record, ⟨member, same⟩, rfl⟩, low⟩

/-- The successors under a cutoff are those among the records that it shows, in commit order. -/
theorem Holds.next_eq : (t.next cutoff hash).mapM Row.metadata =
    .ok (((commits.upTo cutoff).filter fun record => record.prev == hash).map Record.metadata) := by
  have shown : t.next cutoff hash =
      ((commits.filter fun commit => commit.1 ≤ cutoff).filter fun commit =>
        commit.2.prev == hash).map rowOf := by
    rw [next, upTo, holds.rows, List.filter_map, List.filter_map]
    congr 2
    funext commit
    exact Row.prev_ofRecord
  rw [shown, List.mapM_map, mapM_ok (g := fun commit => commit.2.metadata)]
  · simp [Commits.upTo, Commits.records, List.filter_map, Function.comp_def]
  · exact fun commit _ => Row.metadata_ofRecord

omit holds in
private theorem Lists.filterMap_find? (lists : t.Lists commits) {hashes : List Hash} :
    (hashes.filterMap fun hash => t.find? hash.toList) =
      (hashes.filterMap fun hash => commits.find? fun commit => commit.2.hash == hash).map rowOf := by
  rw [List.map_filterMap]
  exact List.filterMap_congr fun hash _ => lists.find?_eq

omit holds in
private theorem map_filterMap_find? {hashes : List Hash} :
    (hashes.filterMap fun hash => commits.find? fun commit => commit.2.hash == hash).map Prod.snd =
      hashes.filterMap fun hash => commits.records.find? fun record => record.hash == hash := by
  rw [List.map_filterMap]
  apply List.filterMap_congr
  intro hash _
  rw [Commits.records, List.find?_map]
  rfl

omit holds in
theorem Lists.read_eq (lists : t.Lists commits) {hashes : List Hash} :
    (hashes.filterMap fun hash => t.find? hash.toList).mapM Row.record =
      .ok (hashes.filterMap fun hash => commits.records.find? fun record => record.hash == hash) := by
  have plain : ∀ commit ∈ hashes.filterMap fun hash => commits.find? fun commit =>
      commit.2.hash == hash, Row.record (rowOf commit) = .ok commit.2 := by
    intro commit member
    obtain ⟨hash, -, located⟩ := List.mem_filterMap.mp member
    exact Row.record_ofRecord (lists.plain commit (List.mem_of_find?_eq_some located))
  rw [lists.filterMap_find?, List.mapM_map, ← map_filterMap_find?]
  exact mapM_ok plain

theorem Holds.read_eq {hashes : List Hash} :
    (hashes.filterMap fun hash => t.find? hash.toList).mapM Row.record =
      .ok (hashes.filterMap fun hash => commits.records.find? fun record => record.hash == hash) :=
  holds.lists.read_eq

theorem Holds.readMetadata_eq {hashes : List Hash} :
    (hashes.filterMap fun hash => t.find? hash.toList).mapM Row.metadata =
      .ok ((hashes.filterMap fun hash =>
        commits.records.find? fun record => record.hash == hash).map Record.metadata) := by
  rw [holds.lists.filterMap_find?, List.mapM_map, ← map_filterMap_find?, List.map_map]
  exact mapM_ok fun _ _ => Row.metadata_ofRecord

omit holds in
theorem insert_eq : t.insert record =
    if record.header.accuracy.isNaN || (t.find? record.hash.toList).isSome then
      (false, { t with lastSeq := t.lastSeq + 1 })
    else (true, { t with
      rows := t.rows ++ [Row.ofRecord (t.lastSeq + 1) record], lastSeq := t.lastSeq + 1 }) := by
  have numeric : (Row.ofRecord 0 record).accuracy.isNaN = record.header.accuracy.isNaN :=
    Accuracy.isNaN_canonical
  rw [Table.insert, addRow, numeric]
  rfl

omit holds in
/-- A numeric record is listed under the next number unless its hash is. -/
theorem Lists.insert (lists : t.Lists commits) (record : Record) : ∃ after, (t.insert record).2.Lists after ∧
    after.records = if record.header.accuracy.isNaN then commits.records
      else addRecord commits.records record.tabled := by
  by_cases refused : record.header.accuracy.isNaN = true ∨ record.hash ∈ hashesIn commits.records
  · refine ⟨commits, ?_, ?_⟩
    · rw [insert_eq, if_pos (by rwa [Bool.or_eq_true, lists.find?_isSome])]
      exact ⟨lists.rows, lists.plain⟩
    · rcases refused with nan | known
      · rw [if_pos nan]
      · have named : record.tabled.hash ∈ hashesIn commits.records := known
        rw [addRecord, if_pos named, ite_self]
  · obtain ⟨numeric, fresh⟩ := not_or.mp refused
    refine ⟨commits ++ [(t.lastSeq + 1, record.tabled)], ?_, ?_⟩
    · rw [insert_eq, if_neg (by rwa [Bool.or_eq_true, lists.find?_isSome])]
      refine ⟨by simp [lists.rows, rowOf, Row.ofRecord_tabled], fun commit member => ?_⟩
      rcases List.mem_append.mp member with old | new
      · exact lists.plain commit old
      · rw [List.mem_singleton.mp new]
        exact Record.tabled_tabled
    · have unnamed : record.tabled.hash ∉ hashesIn commits.records := fresh
      rw [if_neg numeric, addRecord, if_neg unnamed, Commits.records_append, Commits.records_singleton]

/-- A record whose hash is there, or whose accuracy is no number, only uses up a number. -/
theorem Holds.insert_of_not (refused : record.header.accuracy.isNaN = true ∨
      record.hash ∈ hashesIn commits.records) :
    (t.insert record).1 = false ∧ (t.insert record).2.Holds commits ∧
      (t.insert record).2.lastSeq = t.lastSeq + 1 := by
  have kept : (record.header.accuracy.isNaN || (t.find? record.hash.toList).isSome) = true := by
    rw [Bool.or_eq_true, holds.lists.find?_isSome]; exact refused
  rw [insert_eq, if_pos kept]
  exact ⟨rfl, ⟨holds.rows, holds.plain, holds.proper,
    fun commit member => Nat.le_succ_of_le (holds.bounded commit member)⟩, rfl⟩

/-- A new record gets the next number. -/
theorem Holds.insert_of_new (numeric : record.header.accuracy.isNaN = false)
    (fresh : record.hash ∉ hashesIn commits.records) (nonNull : record.hash ≠ Hash.null) :
    (t.insert record).1 = true ∧
      (t.insert record).2.Holds (commits ++ [(t.lastSeq + 1, record.tabled)]) ∧
      (t.insert record).2.lastSeq = t.lastSeq + 1 := by
  have missing : ¬ (record.header.accuracy.isNaN || (t.find? record.hash.toList).isSome) = true := by
    rw [Bool.or_eq_true, holds.lists.find?_isSome, numeric]; simpa using fresh
  have linked : Commits.links (commits ++ [(t.lastSeq + 1, record.tabled)]) =
      commits.links ++ [(record.hash, record.prev)] := by
    simp [Commits.links, Commits.records, linksOf, LogGraph.edgeOf, Record.tabled, Record.prev]
  rw [insert_eq, if_neg missing]
  refine ⟨rfl, ⟨?_, ?_, ?_, ?_⟩, rfl⟩
  · simp [holds.rows, rowOf, Row.ofRecord_tabled]
  · intro commit member
    rcases List.mem_append.mp member with old | new
    · exact holds.plain commit old
    · rw [List.mem_singleton.mp new]
      exact Record.tabled_tabled
  · rw [linked, Edges.proper_concat]
    exact ⟨holds.proper, by simpa [Commits.links] using fresh, nonNull⟩
  · intro commit member
    rcases List.mem_append.mp member with old | new
    · exact Nat.le_succ_of_le (holds.bounded commit old)
    · obtain rfl := List.mem_singleton.mp new
      exact Nat.le_refl _

/-! ## The frontier, by a scan of the rows -/

omit holds in
private theorem greatest_le_iff {rows : List Row} {top bound : Nat} :
    rows.foldl (fun top row => max top row.seq) top ≤ bound ↔
      top ≤ bound ∧ ∀ row ∈ rows, row.seq ≤ bound := by
  induction rows generalizing top with
  | nil => simp
  | cons row rest ih =>
    simp only [List.foldl_cons, ih, Nat.max_le, List.forall_mem_cons, and_assoc]

omit holds in
/-- The cutoff of a snapshot is the greatest number of a commit. -/
theorem Lists.greatestSeq_le_iff (lists : t.Lists commits) {bound : Nat} :
    t.greatestSeq ≤ bound ↔ ∀ commit ∈ commits, commit.1 ≤ bound := by
  rw [greatestSeq, greatest_le_iff, lists.rows, List.forall_mem_map, and_iff_right (Nat.zero_le _)]
  rfl

theorem Holds.greatestSeq_le_iff {bound : Nat} :
    t.greatestSeq ≤ bound ↔ ∀ commit ∈ commits, commit.1 ≤ bound :=
  holds.lists.greatestSeq_le_iff

private theorem Holds.present_iff (hash : Hash) (column : Row → List UInt8) (field : Record → Hash)
    (read : ∀ commit, column (rowOf commit) = (field commit.2).toList) :
    (Std.TreeSet.ofList (t.rows.map column)).contains hash.toList = true ↔
      ∃ record ∈ commits.records, field record = hash := by
  have mapped : t.rows.map column = commits.records.map fun record => (field record).toList := by
    rw [holds.rows, Commits.records, List.map_map, List.map_map]
    exact List.map_congr_left fun commit _ => read commit
  rw [Std.TreeSet.contains_ofList, mapped, List.contains_iff_mem, List.mem_map]
  constructor
  · rintro ⟨record, member, same⟩
    exact ⟨record, member, Hash.ext_toList same⟩
  · rintro ⟨record, member, rfl⟩
    exact ⟨record, member, rfl⟩

/-- Scanning the rows finds the begins of the links. -/
theorem Holds.beginEdges_eq : ∃ parts, t.beginEdges = .ok parts ∧ (parts.map Prod.fst).Nodup ∧
    ∀ hash prev, (hash, prev) ∈ parts ↔ commits.links.Begins hash prev := by
  let begins (record : Record) : Bool :=
    record.prev == Hash.null || !decide (record.prev ∈ hashesIn commits.records)
  have scanned : t.beginRows = (commits.filter fun commit => begins commit.2).map rowOf := by
    rw [beginRows, holds.rows, List.filter_map]
    congr 1
    apply List.filter_congr
    intro commit _
    have null : ((rowOf commit).prev == Hash.null.toList) = (commit.2.prev == Hash.null) :=
      Row.prev_ofRecord
    have present := holds.present_iff commit.2.prev Row.hash Record.hash fun _ => rfl
    rw [holds.rows, ← mem_hashesIn] at present
    have decided : (Std.TreeSet.ofList ((commits.map rowOf).map Row.hash)).contains
        commit.2.prev.toList = decide (commit.2.prev ∈ hashesIn commits.records) := by
      rw [Bool.eq_iff_iff, present, decide_eq_true_iff]
    exact congrArg₂ (· || !·) null decided
  refine ⟨linksOf (commits.records.filter begins), ?_, ?_, ?_⟩
  · have read : ∀ commit ∈ commits.filter fun commit => begins commit.2,
        (do return (← Row.hashColumn (rowOf commit).hash, ← Row.hashColumn (rowOf commit).prev) :
          Except StoreError (Hash × Hash)) = .ok (LogGraph.edgeOf commit.2) := by
      intro commit _
      simp only [rowOf, Row.ofRecord, Row.hashColumn_toList]
      rfl
    rw [beginEdges, scanned, List.mapM_map]
    apply (mapM_ok read).trans
    rw [linksOf, Commits.records, List.filter_map, List.map_map]
    rfl
  · exact holds.proper.nodup.sublist ((List.filter_sublist.map _).map _)
  · intro hash prev
    simp only [mem_linksOf, List.mem_filter, Edges.Begins, Commits.links, known_linksOf, begins,
      Bool.or_eq_true, beq_iff_eq, Bool.not_eq_true', decide_eq_false_iff_not]
    constructor
    · rintro ⟨record, ⟨member, begin⟩, rfl, rfl⟩
      exact ⟨⟨record, member, rfl, rfl⟩, begin⟩
    · rintro ⟨⟨record, member, rfl, rfl⟩, begin⟩
      exact ⟨record, ⟨member, begin⟩, rfl, rfl⟩

/-- Scanning the rows finds the ends of the links. -/
theorem Holds.ends_eq : ∃ ends, t.ends = .ok ends ∧ ∀ hash, hash ∈ ends ↔ commits.links.Ends hash := by
  let ends (record : Record) : Bool := !decide (record.hash ∈ commits.records.map Record.prev)
  have scanned : t.endRows = (commits.filter fun commit => ends commit.2).map rowOf := by
    rw [endRows, holds.rows, List.filter_map]
    congr 1
    apply List.filter_congr
    intro commit _
    have present := holds.present_iff commit.2.hash Row.prev Record.prev fun _ => rfl
    rw [holds.rows, ← List.mem_map] at present
    have decided : (Std.TreeSet.ofList ((commits.map rowOf).map Row.prev)).contains
        commit.2.hash.toList = decide (commit.2.hash ∈ commits.records.map Record.prev) := by
      rw [Bool.eq_iff_iff, present, decide_eq_true_iff]
    exact congrArg (!·) decided
  refine ⟨hashesIn (commits.records.filter ends), ?_, ?_⟩
  · have read : ∀ commit ∈ commits.filter fun commit => ends commit.2,
        Row.hashColumn (rowOf commit).hash = .ok commit.2.hash :=
      fun commit _ => Row.hashColumn_toList
    rw [Table.ends, scanned, List.mapM_map]
    apply (mapM_ok read).trans
    rw [hashesIn, Commits.records, List.filter_map, List.map_map]
    rfl
  · intro hash
    simp only [mem_hashesIn, List.mem_filter, Edges.Ends, Commits.links, known_linksOf, ends,
      Bool.not_eq_true', decide_eq_false_iff_not, mem_linksOf, List.mem_map, not_exists, not_and]
    constructor
    · rintro ⟨record, ⟨member, last⟩, rfl⟩
      exact ⟨⟨record, member, rfl⟩, fun child other listed _ => last other listed⟩
    · rintro ⟨⟨record, member, rfl⟩, last⟩
      exact ⟨record, ⟨member, fun other listed => last other.hash other listed rfl⟩, rfl⟩

end Table

end HashLog
