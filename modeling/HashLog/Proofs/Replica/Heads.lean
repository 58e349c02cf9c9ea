import HashLog.Replica.Basic
import HashLog.Proofs.Exchange.Writes
/-!
What an append goes on from. The ends that an engine lists are the hashes of the tips of its log,
whichever graph it looks them up in (`Holds.logicalEnds_eq`), and reading them gives the tips, also once
more records are stored (`read_tips`). Of these an append picks the one with the greatest number and,
among several, the greatest hash (`headOf_isGreatest`). It lists, reads and writes, in this order
(`append_eq_ok`).
-/
namespace HashLog

/-! ## Tips -/

/-- A record of the log that no record of the log names as its predecessor. -/
def Tip (log : List Record) (record : Record) : Prop :=
  record ∈ log ∧ ∀ other ∈ log, other.prev ≠ record.hash

/-- The first of two records is no better a head: its number is lower, or they have the same number and
its hash is not greater. -/
def Record.AtMost (a b : Record) : Prop :=
  a.header.recNo < b.header.recNo ∨
    a.header.recNo = b.header.recNo ∧ (compare a.hash b.hash).isLE = true

/-- The greatest tip of a log. -/
def IsHead (log : List Record) (head : Record) : Prop :=
  Tip log head ∧ ∀ tip, Tip log tip → tip.AtMost head

/-- The record goes on from the head of a log, with the number after it, or starts a log without tips. -/
def GoesOn (log : List Record) (record : Record) : Prop :=
  (∀ tip, ¬ Tip log tip) ∧ record.prev = Hash.null ∧ record.header.recNo = 1 ∨
    ∃ head, IsHead log head ∧ record.prev = head.hash ∧
      record.header.recNo = head.header.recNo + 1

variable {log more : List Record} {record : Record} {hash : Hash} {a b c : Record}

/-- A tip of a longer log that the shorter one has is a tip of it. -/
theorem Tip.restrict (tip : Tip more record) (grown : log <+: more) (member : record ∈ log) :
    Tip log record :=
  ⟨member, fun other old => tip.2 other (grown.subset old)⟩

theorem ends_linksOf_iff : (linksOf log).Ends hash ↔ ∃ record, Tip log record ∧ record.hash = hash := by
  constructor
  · rintro ⟨known, unnamed⟩
    rw [known_linksOf, mem_hashesIn] at known
    obtain ⟨record, member, rfl⟩ := known
    refine ⟨record, ⟨member, fun other listed names => unnamed other.hash ?_⟩, rfl⟩
    exact mem_linksOf.mpr ⟨other, listed, rfl, names⟩
  · rintro ⟨record, ⟨member, unnamed⟩, rfl⟩
    refine ⟨by rw [known_linksOf]; exact mem_hashesIn.mpr ⟨record, member, rfl⟩, fun child link => ?_⟩
    obtain ⟨other, listed, -, names⟩ := mem_linksOf.mp link
    exact unnamed other listed names

/-- A log of a consistent set that is not empty has a tip. -/
theorem exists_tip {records : Set Record} (consistent : Consistent records)
    (drawn : ∀ r ∈ log, r ∈ records) (some : log ≠ []) : ∃ tip, Tip log tip := by
  obtain ⟨record, member⟩ := List.exists_mem_of_ne_nil log some
  have shown : record.hash ∈ (hashesIn log).toFinset :=
    List.mem_toFinset.mpr (mem_hashesIn.mpr ⟨record, member, rfl⟩)
  obtain ⟨last, -, isEnd⟩ := exists_end_below consistent shown
  obtain ⟨tip, isTip, -⟩ := ends_linksOf_iff.mp ((ends_linksOf consistent drawn).mpr isEnd)
  exact ⟨tip, isTip⟩

/-! ## Heads -/

namespace Record.AtMost

theorem refl (a : Record) : a.AtMost a := Or.inr ⟨rfl, Std.ReflOrd.isLE_rfl⟩

theorem trans (first : a.AtMost b) (second : b.AtMost c) : a.AtMost c := by
  rcases first with less | ⟨same, below⟩
  · rcases second with less' | ⟨same', -⟩
    · exact Or.inl (UInt64.lt_trans less less')
    · exact Or.inl (same' ▸ less)
  · rcases second with less' | ⟨same', below'⟩
    · exact Or.inl (same ▸ less')
    · exact Or.inr ⟨same.trans same', Std.TransOrd.isLE_trans below below'⟩

/-- A number is never above that of a better head. -/
theorem recNo_le (atMost : a.AtMost b) : a.header.recNo ≤ b.header.recNo := by
  rcases atMost with less | ⟨same, -⟩
  · exact UInt64.le_of_lt less
  · exact UInt64.le_of_eq same

/-- Of two records that are no better than each other, the hashes are the same. -/
theorem hash_eq (first : a.AtMost b) (second : b.AtMost a) : a.hash = b.hash := by
  rcases first with less | ⟨same, below⟩
  · exact absurd second.recNo_le (UInt64.not_le.mpr less)
  · rcases second with less | ⟨-, above⟩
    · exact absurd less (same ▸ UInt64.lt_irrefl _)
    · exact Std.LawfulEqOrd.eq_of_compare (Std.OrientedCmp.isLE_antisymm below above)

end Record.AtMost

namespace Replica

theorem isLaterHead_iff : isLaterHead a b = true ↔ a.AtMost b := by
  unfold isLaterHead Record.AtMost
  rcases Std.lt_trichotomy a.header.recNo b.header.recNo with less | same | more
  · rw [Std.compare_eq_lt.mpr less]
    exact iff_of_true rfl (Or.inl less)
  · rw [same, Std.compare_self]
    cases compare a.hash b.hash <;> simp [Ordering.then]
  · rw [Std.compare_eq_gt.mpr more]
    refine iff_of_false (by simp [Ordering.then]) ?_
    rintro (less | ⟨same, -⟩)
    · exact UInt64.lt_irrefl _ (UInt64.lt_trans less more)
    · exact UInt64.lt_irrefl _ (same ▸ more)

theorem atMost_of_not_isLaterHead (earlier : ¬ isLaterHead a b = true) : b.AtMost a := by
  unfold isLaterHead at earlier
  rcases Std.lt_trichotomy a.header.recNo b.header.recNo with less | same | more
  · rw [Std.compare_eq_lt.mpr less] at earlier
    exact absurd rfl earlier
  · rw [same, Std.compare_self] at earlier
    have greater : compare a.hash b.hash = .gt := by simpa [Ordering.then] using earlier
    refine Or.inr ⟨same.symm, ?_⟩
    rw [Std.OrientedCmp.lt_of_gt greater]
    rfl
  · exact Or.inl more

/-- The top of a list of heads stays on top of what was passed. -/
private theorem foldl_isGreatest (first : Record) (rest : List Record) :
    let top := rest.foldl (fun top next => if isLaterHead top next then next else top) first
    top ∈ first :: rest ∧ ∀ other ∈ first :: rest, other.AtMost top := by
  induction rest generalizing first with
  | nil => exact ⟨List.mem_cons_self, fun other member => List.mem_singleton.mp member ▸ .refl first⟩
  | cons next rest ih =>
    rw [List.foldl_cons]
    split
    · rename_i later
      obtain ⟨member, greatest⟩ := ih next
      refine ⟨List.mem_cons_of_mem _ member, List.forall_mem_cons.mpr ⟨?_, greatest⟩⟩
      exact (isLaterHead_iff.mp later).trans (greatest next List.mem_cons_self)
    · rename_i earlier
      obtain ⟨member, greatest⟩ := ih first
      obtain ⟨own, others⟩ := List.forall_mem_cons.mp greatest
      refine ⟨?_, List.forall_mem_cons.mpr ⟨own, List.forall_mem_cons.mpr ⟨?_, others⟩⟩⟩
      · exact List.cons_subset_cons first (List.subset_cons_self next rest) member
      · exact (atMost_of_not_isLaterHead earlier).trans own

theorem headOf_isGreatest {records : List Record} {head : Record} (found : headOf records = some head) :
    head ∈ records ∧ ∀ other ∈ records, other.AtMost head := by
  cases records with
  | nil => cases found
  | cons first rest =>
    obtain rfl := Option.some.inj found
    exact foldl_isGreatest first rest

/-- An append goes on from the head of the log whose tips it has read. -/
theorem draft_goesOn {heads : List Record} (tips : ∀ record, record ∈ heads ↔ Tip log record)
    (keys : Keypair) (clock : Int) (value : List UInt8) : GoesOn log (draft keys clock value heads) := by
  cases found : headOf heads with
  | none =>
    have nothing : heads = [] := by
      cases heads with
      | nil => rfl
      | cons first rest => cases found
    refine Or.inl ⟨fun tip isTip => ?_, ?_, ?_⟩
    · have listed := (tips tip).mpr isTip
      rw [nothing] at listed
      cases listed
    · simp only [draft, found, nextPlace]
      rfl
    · simp only [draft, found, nextPlace]
      rfl
  | some head =>
    obtain ⟨member, greatest⟩ := headOf_isGreatest found
    refine Or.inr ⟨head, ⟨(tips head).mp member, fun tip isTip => greatest tip ((tips tip).mpr isTip)⟩,
      ?_, ?_⟩
    · simp only [draft, found, nextPlace]
      rfl
    · simp only [draft, found, nextPlace]
      rfl

/-- An append is its three steps, one after the other. -/
theorem append_eq_ok {r r' : Replica} {clock : Int} {value : List UInt8} {record : Record}
    (appended : r.append clock value = .ok (record, r')) : ∃ keys ends listed heads, r.keys = some keys ∧
      r.listEnds = .ok (ends, listed) ∧ listed.readEnds ends = .ok heads ∧
      listed.writeOn keys clock value heads = (record, r') := by
  unfold append at appended
  split at appended
  · cases appended
  · next keys own =>
    obtain ⟨⟨ends, listed⟩, first, appended⟩ := bind_eq_ok.mp appended
    obtain ⟨heads, second, last⟩ := bind_eq_ok.mp appended
    exact ⟨keys, ends, listed, heads, own, first, second, Except.ok.inj last⟩

/-- Listing the ends leaves the log as it is. -/
theorem listEnds_eq_ok {r r' : Replica} {ends : List Hash} (listed : r.listEnds = .ok (ends, r')) :
    ∃ registry, r' = { r with engine := r.engine.withRegistry registry } := by
  obtain ⟨⟨hashes, engine⟩, found, same⟩ := bind_eq_ok.mp listed
  obtain ⟨-, rfl⟩ := Prod.mk.inj (Except.ok.inj same)
  obtain ⟨registry, rfl⟩ := Engine.logicalEnds_eq_withRegistry (mapError_eq_ok.mp found)
  exact ⟨registry, rfl⟩

/-- Every store takes an appended record: its accuracy is a number. -/
theorem refusedBy_draft {durable : Bool} {keys : Keypair} {clock : Int} {value : List UInt8}
    {heads : List Record} : (draft keys clock value heads).refusedBy durable = false := by
  have zero : (draft keys clock value heads).header.accuracy = .zero := rfl
  rw [Record.refusedBy, zero]
  exact Bool.and_false durable

end Replica

/-! ## Ends of an engine -/

namespace Engine

variable {e : Engine} {commits : Commits}

/-- The ends that an engine lists are those of all that is committed. -/
theorem Holds.logicalEnds_eq (holds : e.Holds commits) : ∃ ends registry,
    e.logicalEnds = .ok (ends, e.withRegistry registry) ∧
      ∀ hash, hash ∈ ends ↔ (linksOf commits.records).Ends hash := by
  obtain ⟨s, opened, taken, frozen⟩ := holds.snapshot_eq
  cases backend : e.backend with
  | mirror graph version =>
    refine ⟨_, e.store.registry, by rw [logicalEnds, backend]; rfl, fun hash => ?_⟩
    exact (holds.mirror graph version backend).frontier.mem_endList
  | store =>
    obtain ⟨closed, released⟩ := (e.withRegistry opened).release_eq s
    refine ⟨s.frontier.endList, closed, ?_, fun hash => frozen.frontier.mem_endList⟩
    rw [logicalEnds, backend]
    dsimp only
    rw [taken]
    simp only [Except.map, released]
    rfl

end Engine

/-- The records of listed ends are the tips of the log as it was then, whatever has come since. -/
theorem Store.Holds.read_tips {s : Store} {commits : Commits} {ends : List Hash} (holds : s.Holds commits)
    (grown : log <+: commits.records) (listed : ∀ hash, hash ∈ ends ↔ (linksOf log).Ends hash) :
    ∃ heads, s.read ends = .ok heads ∧ ∀ record, record ∈ heads ↔ Tip log record := by
  refine ⟨_, holds.read_eq, fun record => ?_⟩
  have nodup : (linksOf commits.records).known.Nodup := holds.proper.nodup
  rw [List.mem_filterMap]
  constructor
  · rintro ⟨hash, ended, found⟩
    obtain ⟨tip, isTip, rfl⟩ := ends_linksOf_iff.mp ((listed hash).mp ended)
    have same := (find?_eq_some nodup).mpr ⟨grown.subset isTip.1, rfl⟩
    exact Option.some.inj (same.symm.trans found) ▸ isTip
  · intro isTip
    exact ⟨record.hash, (listed _).mpr (ends_linksOf_iff.mpr ⟨record, isTip, rfl⟩),
      (find?_eq_some nodup).mpr ⟨grown.subset isTip.1, rfl⟩⟩

end HashLog
