import HashLog.Store.Memory
import HashLog.Proofs.Store.Commits
import Mathlib.Data.List.Nodup
/-!
The log in memory. Its indexes by hash and by predecessor, and its graph, all describe the list of
records, where the place of a record is its commit number.
-/
namespace HashLog

/-- Records numbered by their places, counted from one. -/
def Commits.byPlace (records : List Record) : Commits :=
  records.zipIdx.map fun (record, place) => (place + 1, record)

/-- The index gives the numbers under which each hash is committed. -/
def Commits.IndexedBy (commits : Commits) (index : Std.TreeMap Hash Nat) : Prop :=
  ∀ hash number, index[hash]? = some number ↔
    ∃ record, (number, record) ∈ commits ∧ record.hash = hash

variable {m : MemoryLog} {commits : Commits} {record : Record} {hash : Hash} {cutoff number : Nat}

namespace Commits

theorem mem_byPlace {records : List Record} :
    (number, record) ∈ byPlace records ↔ 0 < number ∧ records[number - 1]? = some record := by
  simp only [byPlace, List.mem_map, Prod.mk.injEq, Prod.exists]
  constructor
  · rintro ⟨found, place, member, rfl, rfl⟩
    exact ⟨Nat.succ_pos _, List.mk_mem_zipIdx_iff_getElem?.mp member⟩
  · rintro ⟨positive, found⟩
    exact ⟨record, number - 1, List.mk_mem_zipIdx_iff_getElem?.mpr found, by omega, rfl⟩

theorem byPlace_concat {records : List Record} :
    byPlace (records ++ [record]) = byPlace records ++ [(records.length + 1, record)] := by
  simp [byPlace, List.zipIdx_append]

@[simp] theorem records_byPlace {log : List Record} : (byPlace log).records = log := by
  simp [byPlace, records, Function.comp_def]

variable {index : Std.TreeMap Hash Nat}

theorem IndexedBy.contains_iff (indexed : commits.IndexedBy index) :
    index.contains hash = true ↔ hash ∈ hashesIn commits.records := by
  rw [Std.TreeMap.contains_eq_isSome_getElem?, Option.isSome_iff_exists, mem_hashesIn]
  simp only [indexed hash, mem_records]
  exact ⟨fun ⟨number, record, member, same⟩ => ⟨record, ⟨number, member⟩, same⟩,
    fun ⟨record, ⟨number, member⟩, same⟩ => ⟨number, record, member, same⟩⟩

/-- A new hash is indexed under its own number. -/
theorem IndexedBy.insert (indexed : commits.IndexedBy index)
    (fresh : record.hash ∉ hashesIn commits.records) (next : Nat) :
    IndexedBy (commits ++ [(next, record)]) (index.insert record.hash next) := by
  intro hash number
  simp only [Std.TreeMap.getElem?_insert, Std.LawfulEqCmp.compare_eq_iff_eq, List.mem_append,
    List.mem_singleton, Prod.mk.injEq]
  by_cases same : record.hash = hash
  · subst same
    have unlisted : ∀ number other, (number, other) ∈ commits → other.hash ≠ record.hash :=
      fun number other member same =>
        fresh (mem_hashesIn.mpr ⟨other, mem_records.mpr ⟨number, member⟩, same⟩)
    rw [if_pos rfl, Option.some.injEq]
    constructor
    · rintro rfl
      exact ⟨record, Or.inr ⟨rfl, rfl⟩, rfl⟩
    · rintro ⟨other, old | ⟨rfl, -⟩, named⟩
      · exact absurd named (unlisted _ _ old)
      · rfl
  · rw [if_neg same, indexed]
    constructor
    · rintro ⟨other, member, named⟩
      exact ⟨other, Or.inl member, named⟩
    · rintro ⟨other, old | ⟨-, rfl⟩, named⟩
      · exact ⟨other, old, named⟩
      · exact absurd named same

end Commits

namespace MemoryLog

/-- The indexes and the graph of the log in memory are those of these commits. -/
structure Tracks (m : MemoryLog) (commits : Commits) : Prop where
  placed : commits = .byPlace m.records.toList
  seqs : ∀ hash number, m.seqs[hash]? = some number ↔
    ∃ record, (number, record) ∈ commits ∧ record.hash = hash
  children : ∀ hash, m.children.getD hash [] = commits.links.nextOf hash
  mirrors : m.graph = .ofEdges commits.links
  nodup : commits.links.known.Nodup

/-- The log in memory holds these commits, none of them of the null hash. -/
structure Holds (m : MemoryLog) (commits : Commits) : Prop extends m.Tracks commits where
  no_null : Hash.null ∉ commits.links.known

theorem tracks_empty : empty.Tracks [] :=
  ⟨rfl, by simp [empty], by simp [empty, Commits.links, Commits.records, linksOf, Edges.nextOf],
    rfl, List.nodup_nil⟩

theorem holds_empty : empty.Holds [] := ⟨tracks_empty, List.not_mem_nil⟩

theorem Holds.graph (holds : m.Holds commits) : m.graph.Holds commits.links :=
  holds.mirrors ▸ LogGraph.holds_ofEdges ⟨holds.nodup, holds.no_null⟩

variable (tracks : m.Tracks commits)
include tracks

theorem Tracks.records_eq : commits.records = m.records.toList := by
  rw [tracks.placed, Commits.records_byPlace]

theorem Tracks.mem_iff : (number, record) ∈ commits ↔ 0 < number ∧ m.records[number - 1]? = some record := by
  rw [tracks.placed, Commits.mem_byPlace, Array.getElem?_toList]

theorem Tracks.number_le (member : (number, record) ∈ commits) : number ≤ m.records.size := by
  obtain ⟨positive, found⟩ := tracks.mem_iff.mp member
  have := (Array.getElem?_eq_some_iff.mp found).1
  omega

/-- The last place is the greatest number. -/
theorem Tracks.size_le_iff {bound : Nat} :
    m.records.size ≤ bound ↔ ∀ commit ∈ commits, commit.1 ≤ bound := by
  constructor
  · exact fun size commit member => Nat.le_trans (tracks.number_le member) size
  · intro low
    by_cases empty : m.records.size = 0
    · omega
    · have found : m.records[m.records.size - 1]? = some m.records[m.records.size - 1] :=
        Array.getElem?_eq_getElem _
      exact low _ (tracks.mem_iff.mpr ⟨Nat.pos_of_ne_zero empty, found⟩)

theorem Tracks.contains_seqs : m.seqs.contains hash = true ↔ hash ∈ hashesIn commits.records :=
  Commits.IndexedBy.contains_iff tracks.seqs

/-- A commit is found by its hash where the cutoff does not hide it. -/
theorem Tracks.visible?_eq_some : m.visible? cutoff hash = some record ↔
    ∃ number, (number, record) ∈ commits ∧ number ≤ cutoff ∧ record.hash = hash := by
  unfold visible?
  cases placed : m.seqs[hash]? with
  | none =>
    have absent : ∀ number record, (number, record) ∈ commits → record.hash ≠ hash := by
      intro number record member same
      have := (tracks.seqs hash number).mpr ⟨record, member, same⟩
      simp [placed] at this
    simp only [reduceCtorEq, false_iff]
    rintro ⟨number, member, -, same⟩
    exact absent number record member same
  | some seq =>
    obtain ⟨held, member, same⟩ := (tracks.seqs hash seq).mp placed
    have found := (tracks.mem_iff.mp member).2
    have unique : ∀ number record, (number, record) ∈ commits → record.hash = hash →
        number = seq := by
      intro number record member same
      have := (tracks.seqs hash number).mpr ⟨record, member, same⟩
      simpa [placed, eq_comm] using this
    simp only
    by_cases shown : seq ≤ cutoff
    · rw [if_pos shown, found]
      constructor
      · rintro ⟨rfl⟩
        exact ⟨seq, member, shown, same⟩
      · rintro ⟨number, listed, -, named⟩
        obtain rfl := unique number record listed named
        rw [← found]
        exact (tracks.mem_iff.mp listed).2
    · rw [if_neg shown]
      simp only [reduceCtorEq, false_iff]
      rintro ⟨number, listed, low, named⟩
      exact shown (unique number record listed named ▸ low)

/-- A lookup under a cutoff is one among the records that it shows. -/
theorem Tracks.visible?_eq : m.visible? cutoff hash =
    (commits.upTo cutoff).find? fun record => record.hash == hash := by
  ext record
  rw [tracks.visible?_eq_some, HashLog.find?_eq_some (tracks.nodup.sublist Commits.known_upTo_sublist), Commits.mem_upTo]
  exact ⟨fun ⟨number, member, low, same⟩ => ⟨⟨number, member, low⟩, same⟩,
    fun ⟨⟨number, member, low⟩, same⟩ => ⟨number, member, low, same⟩⟩

theorem Tracks.find?_eq_some : m.find? hash = some record ↔ record ∈ commits.records ∧ record.hash = hash := by
  have unhidden : m.find? hash = m.visible? m.records.size hash := by
    unfold find? visible?
    cases placed : m.seqs[hash]? with
    | none => rfl
    | some seq =>
      obtain ⟨held, member, -⟩ := (tracks.seqs hash seq).mp placed
      simp [tracks.number_le member]
  rw [unhidden, tracks.visible?_eq_some, Commits.mem_records]
  constructor
  · rintro ⟨number, member, -, same⟩
    exact ⟨⟨number, member⟩, same⟩
  · rintro ⟨⟨number, member⟩, same⟩
    exact ⟨number, member, tracks.number_le member, same⟩

private theorem Tracks.visible?_of_mem (member : (number, record) ∈ commits) :
    m.visible? cutoff record.hash = if number ≤ cutoff then some record else none := by
  by_cases shown : number ≤ cutoff
  · rw [if_pos shown]
    exact tracks.visible?_eq_some.mpr ⟨number, member, shown, rfl⟩
  · rw [if_neg shown, Option.eq_none_iff_forall_not_mem]
    intro other found
    obtain ⟨low, listed, below, same⟩ := tracks.visible?_eq_some.mp found
    have first := (tracks.seqs record.hash low).mpr ⟨other, listed, same⟩
    have second := (tracks.seqs record.hash number).mpr ⟨record, member, rfl⟩
    rw [first, Option.some.injEq] at second
    omega

omit tracks in
private theorem filterMap_upTo {commits : Commits} :
    (commits.filterMap fun commit => if commit.1 ≤ cutoff then some commit.2 else none) =
      commits.upTo cutoff := by
  induction commits with
  | nil => rfl
  | cons commit rest ih =>
    by_cases shown : commit.1 ≤ cutoff <;>
      simp_all [Commits.upTo, Commits.records]

/-- The successors under a cutoff are those among the records that it shows, in commit order. -/
theorem Tracks.next_eq : m.next cutoff hash =
    (commits.upTo cutoff).filter fun record => record.prev == hash := by
  have listed : commits.links.nextOf hash =
      (commits.filter fun commit => commit.2.prev == hash).map fun commit => commit.2.hash := by
    simp [Commits.links, linksOf, Commits.records, Edges.nextOf, LogGraph.edgeOf, List.filter_map,
      Function.comp_def]
  rw [next, tracks.children, listed, List.filterMap_map]
  have each : ∀ commit ∈ commits.filter (fun commit => commit.2.prev == hash),
      (m.visible? cutoff ∘ fun commit => commit.2.hash) commit =
        if commit.1 ≤ cutoff then some commit.2 else none :=
    fun commit member => tracks.visible?_of_mem (List.mem_of_mem_filter member)
  rw [List.filterMap_congr each, filterMap_upTo]
  simp only [Commits.upTo, Commits.records]
  rw [List.filter_map, List.filter_comm]
  rfl

/-- A record whose hash is there is passed over. -/
theorem Tracks.insert_of_mem (known : record.hash ∈ hashesIn commits.records) :
    m.insert record = (false, m) := by
  rw [MemoryLog.insert, if_pos (tracks.contains_seqs.mpr known)]

/-- A new record gets the next place. -/
theorem Tracks.insert_of_not_mem (fresh : record.hash ∉ hashesIn commits.records) :
    (m.insert record).1 = true ∧
      (m.insert record).2.Tracks (commits ++ [(m.records.size + 1, record)]) := by
  have unindexed : ¬ m.seqs.contains record.hash = true := fun found =>
    fresh (tracks.contains_seqs.mp found)
  rw [MemoryLog.insert, if_neg unindexed]
  have linked : Commits.links (commits ++ [(m.records.size + 1, record)]) =
      commits.links ++ [(record.hash, record.prev)] := by
    simp [Commits.links, Commits.records, linksOf, LogGraph.edgeOf]
  have unknown : record.hash ∉ commits.links.known := by
    rw [Commits.links, known_linksOf]; exact fresh
  refine ⟨rfl, ?_, Commits.IndexedBy.insert tracks.seqs fresh _, ?_, ?_, ?_⟩
  · simp [Commits.byPlace_concat, ← tracks.placed]
  · intro hash
    rw [linked, Edges.nextOf_append, Edges.nextOf_singleton, Std.TreeMap.getD_insert]
    by_cases same : record.prev = hash
    · simp [same, tracks.children]
    · simp [same, tracks.children]
  · rw [linked, LogGraph.ofEdges_concat, ← tracks.mirrors]
  · rw [linked, Edges.nodup_concat]
    exact ⟨tracks.nodup, unknown⟩

omit tracks in
/-- A new record of a hash other than null. -/
theorem Holds.insert_of_not_mem (holds : m.Holds commits)
    (fresh : record.hash ∉ hashesIn commits.records) (nonNull : record.hash ≠ Hash.null) :
    (m.insert record).2.Holds (commits ++ [(m.records.size + 1, record)]) := by
  refine ⟨(holds.toTracks.insert_of_not_mem fresh).2, ?_⟩
  have noNull := holds.no_null
  rw [Commits.links, known_linksOf] at noNull ⊢
  rw [Commits.records_append, hashesIn_append, List.mem_append, not_or]
  exact ⟨noNull, fun null => nonNull (List.mem_singleton.mp null).symm⟩

end MemoryLog

end HashLog
