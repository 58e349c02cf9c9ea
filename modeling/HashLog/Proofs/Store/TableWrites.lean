import HashLog.Proofs.Record.Canonical
import HashLog.Proofs.Store.Held
import Mathlib.Data.Finset.Card
import Mathlib.Data.List.Induction
/-!
What a table makes of a batch, whatever rows it has. A row that is there stays and hides all later
records of its hash; a new hash gets the row of the first record in the batch that has a numeric
accuracy (`find?_insertAll`). So a record comes back as it was written exactly if its accuracy is
neither a NaN nor a negative zero.
-/
namespace HashLog

/-- True if the accuracy is a number, so that a table has a place for the record. -/
def Record.isNumeric (record : Record) : Bool := !record.header.accuracy.isNaN

/-- The first record of a batch that a table could take under a hash. -/
def firstNumeric (batch : List Record) (hash : Hash) : Option Record :=
  batch.find? fun record => record.isNumeric && record.hash == hash

namespace Accuracy

def negativeZero : Accuracy := ⟨0x8000000000000000⟩

theorem isZero_iff {accuracy : Accuracy} :
    accuracy.isZero = true ↔ accuracy = zero ∨ accuracy = negativeZero := by
  rcases accuracy with ⟨bits⟩
  have masked : (bits &&& 0x7fffffffffffffff).toNat = bits.toNat % 2 ^ 63 := by
    rw [UInt64.toNat_and]
    exact Nat.and_two_pow_sub_one_eq_mod bits.toNat 63
  have bound := bits.toNat_lt
  simp only [isZero, zero, negativeZero, beq_iff_eq, Accuracy.mk.injEq, ← UInt64.toNat_inj, masked,
    UInt64.reduceToNat]
  omega

end Accuracy

/-- A table returns a numeric record as it was written unless its accuracy is a negative zero. -/
theorem Record.tabled_eq_iff {record : Record} :
    record.tabled = record ↔ record.header.accuracy ≠ .negativeZero := by
  rcases record with ⟨hash, ⟨prev, recNo, timestamp, accuracy⟩, value, signature⟩
  simp only [Record.tabled, Record.mk.injEq, Header.mk.injEq, true_and, and_true]
  by_cases zero : accuracy.isZero = true
  · rw [if_pos zero]
    rcases Accuracy.isZero_iff.mp zero with rfl | rfl <;> decide
  · rw [if_neg zero]
    simp only [true_iff]
    exact fun negative => zero (Accuracy.isZero_iff.mpr (Or.inr negative))

theorem Row.record_ofRecord_eq {record : Record} {number : Nat} :
    (Row.ofRecord number record).record = .ok record.tabled := by
  rw [← Row.ofRecord_tabled]
  exact Row.record_ofRecord Record.tabled_tabled

theorem firstNumeric_eq_none {batch : List Record} {hash : Hash} :
    firstNumeric batch hash = none ↔ hash ∉ hashesIn (batch.filter Record.isNumeric) := by
  simp [firstNumeric, mem_hashesIn]

theorem isNumeric_of_firstNumeric {batch : List Record} {hash : Hash} {record : Record}
    (first : firstNumeric batch hash = some record) : record.isNumeric = true := by
  have found := List.find?_some first
  exact (Bool.and_eq_true_iff.mp found).1

/-- A numeric record is the first of its hash if no earlier one has it. -/
theorem firstNumeric_append {front back : List Record} {record : Record}
    (numeric : record.isNumeric = true) (unnamed : record.hash ∉ hashesIn front) :
    firstNumeric (front ++ record :: back) record.hash = some record := by
  have earlier : firstNumeric front record.hash = none := by
    rw [firstNumeric_eq_none, mem_hashesIn]
    rintro ⟨other, listed, same⟩
    exact unnamed (mem_hashesIn.mpr ⟨other, (List.mem_filter.mp listed).1, same⟩)
  rw [firstNumeric] at earlier ⊢
  rw [List.find?_append, earlier, Option.none_or, List.find?_cons_of_pos (by simp [numeric])]

namespace Table

variable {t : Table} {record : Record} {batch : List Record} {hash : Hash}

/-- The table after a batch. -/
def insertAll (t : Table) (batch : List Record) : Table :=
  batch.foldl (fun t record => (t.insert record).2) t

/-- A record is taken if it is numeric and no row has its hash. -/
theorem insert_fst : (t.insert record).1 = true ↔
    record.isNumeric = true ∧ t.find? record.hash.toList = none := by
  rw [insert_eq]
  cases numeric : record.header.accuracy.isNaN <;>
    cases found : t.find? record.hash.toList <;> simp [Record.isNumeric, numeric]

/-- One more record shows under its hash only if nothing else does. -/
private theorem find?_insert : (t.insert record).2.find? hash.toList =
    (t.find? hash.toList).or
      ((firstNumeric [record] hash).map (Row.ofRecord (t.lastSeq + 1))) := by
  have single : firstNumeric [record] hash =
      if record.isNumeric && record.hash == hash then some record else none := by
    rw [firstNumeric, List.find?_singleton]
  rw [insert_eq, single]
  split
  · rename_i kept
    change t.find? hash.toList = _
    split
    · rename_i own
      -- a row has the hash, since the record is numeric
      obtain ⟨numeric, same⟩ : record.header.accuracy.isNaN = false ∧ record.hash = hash := by
        simpa [Record.isNumeric] using own
      rw [numeric, Bool.false_or, same] at kept
      rw [Option.or_of_isSome kept]
    · simp
  · rename_i added
    obtain ⟨numeric, -⟩ : record.header.accuracy.isNaN = false ∧ _ := by simpa using added
    simp only [find?, List.find?_append, List.find?_singleton, Row.hash_ofRecord]
    by_cases same : record.hash = hash <;> simp [Record.isNumeric, numeric, same]

/-- A hash that no row has gets the row of the first numeric record of the batch that has it. -/
theorem find?_insertAll (t : Table) (batch : List Record) (hash : Hash) :
    ∃ number, (t.insertAll batch).find? hash.toList =
      (t.find? hash.toList).or ((firstNumeric batch hash).map (Row.ofRecord number)) := by
  induction batch generalizing t with
  | nil => exact ⟨0, by simp [insertAll, firstNumeric]⟩
  | cons record rest ih =>
    obtain ⟨number, later⟩ := ih (t := (t.insert record).2)
    have split : firstNumeric (record :: rest) hash =
        (firstNumeric [record] hash).or (firstNumeric rest hash) := by
      rw [firstNumeric, ← List.singleton_append, List.find?_append]
      rfl
    rw [insertAll, List.foldl_cons, ← insertAll, later, find?_insert, split]
    cases firstNumeric [record] hash with
    | none => exact ⟨number, by simp⟩
    | some first => exact ⟨t.lastSeq + 1, by cases t.find? hash.toList <;> simp⟩

end Table

namespace Store

variable {s : Store} {t : Table} {record : Record} {batch : List Record} {hash : Hash}

private theorem read_table (table : s.medium = .table t) : s.read [hash] =
    match t.find? hash.toList with
    | none => .ok []
    | some row => row.record.map fun record => [record] := by
  rw [read, table]
  simp only [List.filterMap_cons, List.filterMap_nil]
  cases t.find? hash.toList with
  | none => rfl
  | some row =>
    simp only [List.mapM_cons, List.mapM_nil]
    cases row.record <;> rfl

/-- A hash reads as nothing if no row has it. -/
private theorem read_eq_nil (table : s.medium = .table t) :
    s.read [hash] = .ok [] ↔ t.find? hash.toList = none := by
  rw [read_table table]
  cases t.find? hash.toList with
  | none => simp
  | some row => cases h : row.record <;> simp [h, Except.map]

private theorem insert_table (table : s.medium = .table t) : s.insert record =
    ((t.insert record).1, { s with medium := .table (t.insert record).2 }) := by
  rw [Store.insert, table]

private theorem write_medium (table : s.medium = .table t) :
    (s.write batch).2.medium = .table (t.insertAll batch) := by
  rw [write_snd]
  induction batch generalizing s t with
  | nil => exact table
  | cons record rest ih =>
    exact ih (congrArg (fun result => result.2.medium) (insert_table table))

/-- A hash that is there reads as before. -/
theorem read_write_of_mem (table : s.medium = .table t) (present : s.read [hash] ≠ .ok []) :
    (s.write batch).2.read [hash] = s.read [hash] := by
  obtain ⟨number, found⟩ := t.find?_insertAll batch hash
  have known : (t.find? hash.toList).isSome = true := by
    rw [Option.isSome_iff_ne_none, ne_eq, ← read_eq_nil table]
    exact present
  rw [read_table (write_medium table), read_table table, found, Option.or_of_isSome known]

/-- A hash that is not there reads as the first numeric record of the batch that has it. -/
theorem read_write_of_not_mem (table : s.medium = .table t) (batch : List Record)
    (absent : s.read [hash] = .ok []) :
    (s.write batch).2.read [hash] = .ok ((firstNumeric batch hash).map Record.tabled).toList := by
  obtain ⟨number, found⟩ := t.find?_insertAll batch hash
  rw [read_table (write_medium table), found, (read_eq_nil table).mp absent, Option.none_or]
  cases firstNumeric batch hash with
  | none => rfl
  | some record => simp [Row.record_ofRecord_eq, Except.map]

/-- A write goes record by record. -/
theorem write_concat : (s.write (batch ++ [record])).1 =
    (s.write batch).1.count ((s.write batch).2.insert record).1 := by
  simp [write, List.foldl_append]

/-- The hashes that a batch brings to a table. -/
def brought (s : Store) (batch : List Record) : Finset Hash :=
  (hashesIn (batch.filter Record.isNumeric)).toFinset.filter fun hash => s.read [hash] = .ok []

private theorem mem_brought : hash ∈ s.brought batch ↔
    hash ∈ hashesIn (batch.filter Record.isNumeric) ∧ s.read [hash] = .ok [] := by
  rw [brought, Finset.mem_filter, List.mem_toFinset]

private theorem mem_brought_concat : hash ∈ s.brought (batch ++ [record]) ↔ hash ∈ s.brought batch ∨
    (record.isNumeric = true ∧ hash = record.hash ∧ s.read [hash] = .ok []) := by
  have last : hash ∈ hashesIn ([record].filter Record.isNumeric) ↔
      record.isNumeric = true ∧ hash = record.hash := by
    cases numeric : record.isNumeric <;> simp [numeric, hashesIn]
  rw [mem_brought, mem_brought, List.filter_append, hashesIn_append, List.mem_append, last]
  tauto

/-- A record is counted as inserted if it is numeric and its hash is new. -/
private theorem insert_after (table : s.medium = .table t) (batch : List Record) (record : Record) :
    ((s.write batch).2.insert record).1 = true ↔
      record.isNumeric = true ∧ s.read [record.hash] = .ok [] ∧
        record.hash ∉ hashesIn (batch.filter Record.isNumeric) := by
  obtain ⟨number, found⟩ := t.find?_insertAll batch record.hash
  have inserted : ((s.write batch).2.insert record).1 = ((t.insertAll batch).insert record).1 := by
    rw [insert_table (write_medium table)]
  rw [inserted, Table.insert_fst, found, Option.or_eq_none_iff, Option.map_eq_none_iff,
    ← read_eq_nil table, firstNumeric_eq_none]

/-- As many records are inserted as hashes are brought, and the others are duplicates. -/
theorem write_counts (table : s.medium = .table t) :
    (s.write batch).1.inserted = (s.brought batch).card ∧
      (s.write batch).1.inserted + (s.write batch).1.duplicates = batch.length := by
  induction batch using List.reverseRecOn with
  | nil => exact ⟨rfl, rfl⟩
  | append_singleton front record ih =>
    obtain ⟨inserted, total⟩ := ih
    have new := insert_after table front record
    rw [write_concat, List.length_append, List.length_singleton]
    cases taken : ((s.write front).2.insert record).1 with
    | true =>
      obtain ⟨numeric, absent, first⟩ := new.mp taken
      have unlisted : record.hash ∉ s.brought front := fun listed => first (mem_brought.mp listed).1
      have grown : s.brought (front ++ [record]) = (s.brought front).cons record.hash unlisted := by
        ext hash
        rw [mem_brought_concat, Finset.mem_cons, or_comm]
        apply or_congr_left
        exact ⟨fun own => own.2.1, fun same => ⟨numeric, same, same ▸ absent⟩⟩
      rw [grown, Finset.card_cons]
      simp only [WriteSummary.count, ↓reduceIte]
      omega
    | false =>
      have same : s.brought (front ++ [record]) = s.brought front := by
        ext hash
        rw [mem_brought_concat, or_iff_left_iff_imp]
        rintro ⟨numeric, rfl, absent⟩
        by_contra unlisted
        have missing : record.hash ∉ hashesIn (front.filter Record.isNumeric) :=
          fun listed => unlisted (mem_brought.mpr ⟨listed, absent⟩)
        rw [new.mpr ⟨numeric, absent, missing⟩] at taken
        cases taken
      rw [same]
      simp only [WriteSummary.count, Bool.false_eq_true, ↓reduceIte]
      omega

end Store

/-- A table keeps a record exactly if its accuracy is neither a NaN nor a negative zero. A batch is
counted as inserted once for each new hash that a numeric record brings, and as a duplicate otherwise,
so a record without a numeric accuracy counts as a duplicate of nothing. What was there reads as
before; a record whose hash is new reads as it was written just in that case, and one with a negative
zero reads as a record of other bytes. -/
theorem table_keeps_numeric {s : Store} {t : Table} (table : s.medium = .table t)
    (batch : List Record) :
    ((s.write batch).1.inserted = (s.brought batch).card ∧
      (s.write batch).1.inserted + (s.write batch).1.duplicates = batch.length) ∧
    (∀ hash, s.read [hash] ≠ .ok [] → (s.write batch).2.read [hash] = s.read [hash]) ∧
    ∀ front r back, batch = front ++ r :: back → s.read [r.hash] = .ok [] →
      r.hash ∉ hashesIn front →
      ((s.write batch).2.read [r.hash] = .ok [r] ↔
        r.header.accuracy.isNaN = false ∧ r.header.accuracy ≠ .negativeZero) ∧
      (r.header.accuracy = .negativeZero → (s.write batch).2.read [r.hash] = .ok [r.tabled] ∧
        r.tabled.header.canonical ++ r.tabled.value ≠ r.header.canonical ++ r.value) := by
  refine ⟨Store.write_counts table, fun hash => Store.read_write_of_mem table, ?_⟩
  rintro front r back rfl absent unnamed
  have read := Store.read_write_of_not_mem table (front ++ r :: back) absent
  have kept (numeric : r.header.accuracy.isNaN = false) :
      (s.write (front ++ r :: back)).2.read [r.hash] = .ok [r.tabled] := by
    rw [read, firstNumeric_append (by simp [Record.isNumeric, numeric]) unnamed]
    rfl
  refine ⟨⟨?_, ?_⟩, ?_⟩
  · intro whole
    have numeric : r.header.accuracy.isNaN = false := by
      rw [read, Except.ok.injEq, Option.toList_eq_singleton_iff, Option.map_eq_some_iff] at whole
      obtain ⟨other, first, rfl⟩ := whole
      have numeric := isNumeric_of_firstNumeric first
      rw [Record.isNumeric, Bool.not_eq_true', ← Accuracy.isNaN_canonical] at numeric
      exact numeric
    refine ⟨numeric, Record.tabled_eq_iff.mp ?_⟩
    rw [kept numeric, Except.ok.injEq, List.cons.injEq] at whole
    exact whole.1
  · rintro ⟨numeric, nonzero⟩
    rw [kept numeric, Record.tabled_eq_iff.mpr nonzero]
  · intro negative
    refine ⟨kept (by rw [negative]; decide), ?_⟩
    intro same
    have headers : r.tabled.header = r.header := (Header.canonical_append_inj same).1
    have whole : r.tabled = r := congrArg (fun header => { r with header }) headers
    exact Record.tabled_eq_iff.mp whole negative

/-- Of three new records one comes back as it was written. -/
theorem table_keeps_numeric_of_three :
    let record (hash : UInt8) (accuracy : Accuracy) : Record :=
      ⟨⟨.fill 32 hash⟩, ⟨.null, 1, 0, accuracy⟩, [], .unsigned⟩
    let half := record 1 ⟨0x3fe0000000000000⟩
    let nan := record 2 ⟨0x7ff8000000000000⟩
    let minus := record 3 .negativeZero
    let written := Store.durable.write [half, nan, minus]
    (written.1.inserted = 2 ∧ written.1.inserted + written.1.duplicates = 3) ∧
      written.2.read [half.hash] = .ok [half] ∧ written.2.read [nan.hash] ≠ .ok [nan] ∧
      written.2.read [minus.hash] = .ok [minus.tabled] ∧ written.2.read [minus.hash] ≠ .ok [minus] := by
  intro record half nan minus written
  obtain ⟨⟨inserted, total⟩, -, each⟩ := table_keeps_numeric (s := .durable) rfl [half, nan, minus]
  have first := each [] half [nan, minus] rfl (by decide) (by decide)
  have second := each [half] nan [minus] rfl (by decide) (by decide)
  have third := each [half, nan] minus [] rfl (by decide) (by decide)
  refine ⟨⟨inserted.trans (by decide), total⟩, first.1.mpr (by decide), ?_, (third.2 rfl).1, ?_⟩
  · exact fun whole => absurd (second.1.mp whole) (by decide)
  · exact fun whole => absurd (third.1.mp whole) (by decide)

end HashLog
