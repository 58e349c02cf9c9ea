import HashLog.Proofs.Replica.Appends
/-!
The numbers of appended records. An append takes the number after that of the head, which is the greatest
among the tips, so where that number can still be counted up the new record is above all of them and has
every claim to be the next head: only a record that names it, or a tip that is better still and came in
since, keeps the next append from it (`appends_outnumber_tips`). Naming it is enough, whatever the number of
the record that does (`append_passes_over_named`). Where the greatest number there is has been given to a tip,
counting starts over (`appends_start_over`).
-/
namespace HashLog

/-- The number of each tip can be counted up. -/
def Countable (log : List Record) : Prop :=
  ∀ tip, Tip log tip → tip.header.recNo.toNat + 1 < UInt64.size

/-- The record starts a log without tips, or goes on from the head and has the number after it, as a
natural number. -/
def CountsOn (log : List Record) (record : Record) : Prop :=
  (∀ tip, ¬ Tip log tip) ∧ record.prev = Hash.null ∧ record.header.recNo = 1 ∨
    ∃ head, IsHead log head ∧ record.prev = head.hash ∧
      record.header.recNo.toNat = head.header.recNo.toNat + 1

variable {log more : List Record} {record next tip : Record}

theorem GoesOn.countsOn (goesOn : GoesOn log record) (countable : Countable log) :
    CountsOn log record := by
  refine goesOn.imp_right ?_
  rintro ⟨head, isHead, names, number⟩
  refine ⟨head, isHead, names, ?_⟩
  rw [number, UInt64.toNat_add]
  exact Nat.mod_eq_of_lt (countable head isHead.1)

theorem GoesOn.starts_over (goesOn : GoesOn log record) (last : ¬ Countable log) :
    record.header.recNo = 0 := by
  simp only [Countable, not_forall] at last
  obtain ⟨tip, isTip, greatest⟩ := last
  rcases goesOn with ⟨none, -⟩ | ⟨head, isHead, -, number⟩
  · exact absurd isTip (none tip)
  · have below := UInt64.le_iff_toNat_le.mp (isHead.2 tip isTip).recNo_le
    have full : head.header.recNo.toNat + 1 = UInt64.size :=
      Nat.le_antisymm head.header.recNo.toNat_lt (by omega)
    rw [number, ← UInt64.toNat_inj, UInt64.toNat_add, UInt64.toNat_one, full]
    rfl

theorem CountsOn.above (counts : CountsOn log record) (isTip : Tip log tip) :
    tip.header.recNo < record.header.recNo := by
  rcases counts with ⟨none, -⟩ | ⟨head, isHead, -, number⟩
  · exact absurd isTip (none tip)
  · have below := UInt64.le_iff_toNat_le.mp (isHead.2 tip isTip).recNo_le
    rw [UInt64.lt_iff_toNat_lt]
    omega

/-- A record that counts on is the head of a longer log as long as it is a tip of it, unless a better tip
has come in since. -/
theorem CountsOn.next_head (counts : CountsOn log record) (grown : log <+: more) (isTip : Tip more record)
    (goesOn : GoesOn more next) : IsHead more record ∧ next.prev = record.hash ∨
      ∃ head, IsHead more head ∧ head ∉ log ∧ ¬ head.AtMost record ∧ next.prev = head.hash := by
  rcases goesOn with ⟨none, -⟩ | ⟨head, isHead, names, -⟩
  · exact absurd isTip (none record)
  · -- a better head cannot be a tip of the old log, all of whose tips the record is above
    by_cases below : head.AtMost record
    · have same := below.hash_eq (isHead.2 record isTip)
      exact Or.inl ⟨⟨isTip, fun tip other => (isHead.2 tip other).trans below⟩, names.trans same⟩
    · refine Or.inr ⟨head, isHead, fun old => below ?_, below, names⟩
      exact Or.inl (counts.above (isHead.1.restrict grown old))

/-- The number of an appended record is one more than that of the head, greater than the numbers of all
tips, as long as these can be counted up. The next append goes on from it if it is a tip then and no better
one has come in since, and takes a greater number, if it can. -/
theorem appends_outnumber_tips {records : Set Record} {kind : BackendKind} {store : Store}
    {settings : Settings} {r : Replica} (nonNull : ∀ r ∈ records, r.hash ≠ Hash.null)
    (filled : store.Reachable records)
    (kept : kind = .mirror → ∀ r ∈ records, r.refusedBy store.medium.durable = false)
    (started : Engine.start kind store settings = .ok r.engine) (steps : List AppendStep)
    (drawn : ∀ event ∈ steps, ∀ r ∈ event.records, r ∈ records)
    (own : ∀ x ∈ ((Appender.start r).run steps).done, x.record ∈ records) :
    (∀ x ∈ ((Appender.start r).run steps).done, Countable x.log →
      CountsOn x.log x.record ∧ ∀ tip, Tip x.log tip → tip.header.recNo < x.record.header.recNo) ∧
    ∀ before x y after, ((Appender.start r).run steps).done = before ++ x :: y :: after →
      Countable x.log → Tip y.log x.record →
      (IsHead y.log x.record ∧ y.record.prev = x.record.hash ∨
        ∃ head, IsHead y.log head ∧ head ∉ x.log ∧ ¬ head.AtMost x.record ∧
          y.record.prev = head.hash) ∧
      (Countable y.log → x.record.header.recNo < y.record.header.recNo) := by
  obtain ⟨now, steady⟩ := Appender.steady_run nonNull filled kept started drawn own
  refine ⟨fun x member countable => ?_, fun before x y after account countable isTip => ?_⟩
  · have counts := (steady.done x member).1.countsOn countable
    exact ⟨counts, fun tip => counts.above⟩
  · have first : x ∈ ((Appender.start r).run steps).done := by simp [account]
    have second : y ∈ ((Appender.start r).run steps).done := by simp [account]
    have apart : x.Before y.log := by
      have pairs := steady.apart
      rw [account, List.pairwise_append, List.pairwise_cons] at pairs
      exact pairs.2.1.1 y List.mem_cons_self
    have grown : x.log <+: y.log := apart.grown
    have goesOn := (steady.done y second).1
    exact ⟨((steady.done x first).1.countsOn countable).next_head grown isTip goesOn,
      fun countable' => (goesOn.countsOn countable').above isTip⟩

/-- Two appends on a durable store that a first record has come in at. -/
theorem appends_outnumber_tips_of_received :
    let keys : Keypair := ⟨.fill 32 3⟩
    let engine : Engine := ⟨.standard, .store, .durable, ∅⟩
    let r : Replica := ⟨⟨.fill 32 2⟩, .standard, some keys, .ofMode .cycle, engine⟩
    let steps : List AppendStep := [.operate (.write [Sample.trunk]), .list, .read, .write 0 [1],
      .append 0 [2]]
    let done := ((Appender.start r).run steps).done
    done.map (fun x => x.record.header.recNo) = [2, 3] ∧
      ∀ x ∈ done, ∀ tip, Tip x.log tip → tip.header.recNo < x.record.header.recNo := by
  intro keys engine r steps done
  let all : List Record := Sample.trunk :: done.map Appended.record
  have numbers : done.map (fun x => x.record.header.recNo) = [2, 3] := by decide +kernel
  have proper : ∀ record ∈ all, record.hash ≠ Hash.null := by decide +kernel
  have low : ∀ x ∈ done, ∀ tip ∈ x.log, tip.header.recNo.toNat + 1 < UInt64.size := by decide +kernel
  have drawn : ∀ event ∈ steps, ∀ record ∈ event.records, record ∈ all := by
    simp [steps, AppendStep.records, Operation.records, all]
  have started : Engine.start .store .durable .standard = .ok engine := rfl
  have plain : BackendKind.store = .mirror → ∀ record ∈ {record | record ∈ all},
      record.refusedBy true = false := fun mirror => absurd mirror (by decide)
  obtain ⟨each, -⟩ := appends_outnumber_tips (r := r) proper .durable plain started steps drawn
    fun x member => List.mem_cons_of_mem _ (List.mem_map_of_mem member)
  exact ⟨numbers, fun x member => (each x member fun tip isTip => low x member tip isTip.1).2⟩

namespace Sample

/-- A replica with keys that has appended nothing yet. -/
def appender (backend : Backend) (store : Store) : Appender :=
  .start ⟨⟨.fill 32 2⟩, .standard, some ⟨.fill 32 3⟩, .ofMode .cycle, ⟨.standard, backend, store, ∅⟩⟩

/-- A peer starts an exchange and sends a record in it. -/
def receive (record : Record) : List AppendStep :=
  [.operate (.process 0 ⟨.fill 32 4⟩ (.first [] [])),
    .operate (.process 0 ⟨.fill 32 4⟩ (.third [] [record]))]

end Sample

-- What a durable store does not take, a graph in memory lists as an end all the same; no append counts on it.
example :
    let broken : Record := .build ⟨.null, 5, 0, ⟨0x7ff8000000000000⟩⟩ [3]
    let listed := (Sample.appender (.mirror .empty 0) .durable).run (Sample.receive broken)
    listed.replica.engine.logicalEnds.toOption.map Prod.fst = some [broken.hash] ∧
      (listed.run [.append 0 [1]]).done.map (fun x => x.record.header.recNo) = [1] := by
  decide +kernel

/-- A peer sends a record of number 0 that names the one just appended: the next append goes on from it,
under the number that the last one had, though no tip is better than that one. -/
theorem append_passes_over_named :
    let appended := Replica.draft ⟨.fill 32 3⟩ 0 [1] []
    let named : Record := .build ⟨appended.hash, 0, 0, .zero⟩ [3]
    let passed := (Sample.appender .store .inMemory).run
      (.append 0 [1] :: Sample.receive named ++ [.append 0 [2]])
    ∃ x y, passed.done = [x, y] ∧ x.record = appended ∧ y.record.prev = named.hash ∧
      y.record.prev ≠ x.record.hash ∧ x.record.header.recNo = 1 ∧ y.record.header.recNo = 1 ∧
      ∀ tip, Tip y.log tip → tip.AtMost x.record := by
  intro appended named passed
  have two : passed.done.length = 2 := by decide +kernel
  have facts : ∀ pair ∈ passed.done.zip passed.done.tail, pair.1.record = appended ∧
      pair.2.record.prev = named.hash ∧ pair.2.record.prev ≠ pair.1.record.hash ∧
      pair.1.record.header.recNo = 1 ∧ pair.2.record.header.recNo = 1 ∧
      ∀ tip ∈ pair.2.log, (∀ other ∈ pair.2.log, other.prev ≠ tip.hash) →
        tip.header.recNo < pair.1.record.header.recNo := by decide +kernel
  obtain ⟨x, y, account⟩ := List.length_eq_two.mp two
  obtain ⟨own, prev, differs, first, second, tips⟩ := facts (x, y) (by simp [account])
  exact ⟨x, y, account, own, prev, differs, first, second,
    fun tip isTip => Or.inl (tips tip isTip.1 isTip.2)⟩

/-- After a tip of the greatest number there is, an append starts over at zero, as long as additions are not
checked; a build that checks them makes no such append. -/
theorem appends_start_over {records : Set Record} {kind : BackendKind} {store : Store} {settings : Settings}
    {r : Replica} (nonNull : ∀ r ∈ records, r.hash ≠ Hash.null) (filled : store.Reachable records)
    (kept : kind = .mirror → ∀ r ∈ records, r.refusedBy store.medium.durable = false)
    (started : Engine.start kind store settings = .ok r.engine) (steps : List AppendStep)
    (drawn : ∀ event ∈ steps, ∀ r ∈ event.records, r ∈ records)
    (own : ∀ x ∈ ((Appender.start r).run steps).done, x.record ∈ records) :
    ∀ x ∈ ((Appender.start r).run steps).done, ¬ Countable x.log → x.record.header.recNo = 0 := by
  obtain ⟨now, steady⟩ := Appender.steady_run nonNull filled kept started drawn own
  exact fun x member => (steady.done x member).1.starts_over

example :
    let last : Record := .build ⟨.null, 0xffffffffffffffff, 0, .zero⟩ [3]
    ((Sample.appender .store .inMemory).run (Sample.receive last ++ [.append 0 [1]])).done.map
      (fun x => x.record.header.recNo) = [0] := by
  decide +kernel

end HashLog
