import HashLog.Store.Convergence
import HashLog.Proofs.Exchange.Holdings
import HashLog.Proofs.Exchange.Union
/-!
Comparing stores. Hashes have one width and the log of a store holds each of them once, so the bytes
that are hashed for a store and the set of its hashes determine each other (`setBytes_eq_iff`), in
whatever order the records came and wherever they are kept. A digest can therefore hide a difference
between two stores only by a collision of the hash function.
-/
namespace HashLog

variable {ours theirs : List Hash} {log : List Record} {near far s : Store}

/-! ## The bytes of a set -/

/-- Hashes are found again in the bytes that they make up together. -/
theorem flatMap_toList_inj :
    ours.flatMap (fun hash => hash.toList) = theirs.flatMap (fun hash => hash.toList) ↔ ours = theirs := by
  refine ⟨fun same => ?_, fun same => same ▸ rfl⟩
  have nonempty (hash : Hash) (rest : List Hash) :
      (hash :: rest).flatMap (fun hash => hash.toList) ≠ [] := fun empty => by
    have short := congrArg List.length empty
    rw [List.flatMap_cons, List.length_append, hash.length_toList, List.length_nil] at short
    omega
  induction ours generalizing theirs with
  | nil =>
    cases theirs with
    | nil => rfl
    | cons hash rest => exact absurd same.symm (nonempty hash rest)
  | cons hash rest ih =>
    cases theirs with
    | nil => exact absurd same (nonempty hash rest)
    | cons other rest' =>
      rw [List.flatMap_cons, List.flatMap_cons] at same
      obtain ⟨first, others⟩ := List.append_inj same (by rw [hash.length_toList, other.length_toList])
      rw [Hash.ext_toList first, ih others]

/-- In ascending order, lists without repetition differ only where their members do. -/
theorem mergeSort_eq_iff (left : ours.Nodup) (right : theirs.Nodup) :
    ours.mergeSort (fun a b => (compare a b).isLE) = theirs.mergeSort (fun a b => (compare a b).isLE) ↔
      ∀ hash, hash ∈ ours ↔ hash ∈ theirs := by
  constructor
  · intro same hash
    have sorted : ∀ hashes : List Hash, hash ∈ hashes.mergeSort (fun a b => (compare a b).isLE) ↔
        hash ∈ hashes := fun _ => List.mem_mergeSort
    rw [← sorted ours, same, sorted theirs]
  · intro same
    have total (a b : Hash) : ((compare a b).isLE || (compare b a).isLE) = true := by
      rw [Std.OrientedOrd.eq_swap (a := b)]
      cases compare a b <;> rfl
    have trans (a b c : Hash) : (compare a b).isLE = true → (compare b c).isLE = true →
        (compare a c).isLE = true := Std.TransOrd.isLE_trans
    have ascending := List.pairwise_mergeSort trans total
    have perm := (List.perm_ext_iff_of_nodup left right).mpr same
    exact ((List.mergeSort_perm ours _).trans (perm.trans (List.mergeSort_perm theirs _).symm)).eq_of_pairwise
      (fun a b _ _ below above =>
        Std.LawfulEqOrd.eq_of_compare (Std.OrientedCmp.isLE_antisymm below above))
      (ascending ours) (ascending theirs)

/-- The bytes that stand for a collection of hashes tell which they are. -/
theorem setBytes_eq_iff (left : ours.Nodup) (right : theirs.Nodup) :
    setBytes ours = setBytes theirs ↔ ours.toFinset = theirs.toFinset := by
  have members : ours.toFinset = theirs.toFinset ↔ ∀ hash, hash ∈ ours ↔ hash ∈ theirs := by
    simp [Finset.ext_iff]
  rw [members, ← mergeSort_eq_iff left right, setBytes, setBytes, List.append_cancel_left_eq]
  exact flatMap_toList_inj

/-- The number of members that another set lacks is the size of the difference. -/
theorem HashSet.countOutside_ofList : (ofList ours).countOutside (ofList theirs) =
    (ours.toFinset \ theirs.toFinset).card := by
  have distinct : (ofList ours).toList.Nodup :=
    Std.TreeSet.distinct_toList.imp fun {a b} apart same => apart (by rw [same, Std.ReflOrd.compare_self])
  rw [countOutside, ← List.toFinset_card_of_nodup (distinct.filter _)]
  congr 1
  ext hash
  simp [ofList]

/-! ## Logs -/

namespace Store

/-- The log of a store holds each hash once. -/
theorem Reachable.nodup {records : Set Record} (reached : s.Reachable records) :
    (hashesIn s.log).Nodup := by
  refine reached.of_write (P := fun medium => (hashesIn (Store.mk medium .empty).log).Nodup)
    List.nodup_nil List.nodup_nil fun {s batch} before _ nodup => ?_
  change (hashesIn (s.write batch).2.log).Nodup
  rw [(before.filed.lists.write batch).log_eq]
  exact nodup_addRecords nodup

theorem Lists.hashes_eq (lists : s.Lists log) : s.hashes = .ok (hashesIn log) := by
  simp [hashes, lists.readAllMetadata_eq, hashesIn, Except.map, Function.comp_def, Record.metadata]

theorem Lists.setDigest_eq (lists : s.Lists log) :
    s.setDigest = .ok (Blake3.hash (setBytes (hashesIn log))) := by
  rw [setDigest, lists.hashes_eq]
  rfl

/-- Stores are compared by their digests, and counted against each other where these differ. -/
theorem compareWith_eq (left : near.Lists near.log) (right : far.Lists far.log) :
    near.compareWith far = .ok
      (if Blake3.hash (setBytes (hashesIn near.log)) = Blake3.hash (setBytes (hashesIn far.log)) then
        .converged
      else .diverged (hashSet near.log \ hashSet far.log).card (hashSet far.log \ hashSet near.log).card) := by
  unfold compareWith
  rw [left.setDigest_eq, right.setDigest_eq, left.hashes_eq, right.hashes_eq]
  simp only [hashSet, ← HashSet.countOutside_ofList, bind, Except.bind]
  split <;> rfl

end Store

/-- Byte strings that the hash function does not tell apart. -/
def Blake3.Collide (a b : List UInt8) : Prop := a ≠ b ∧ Blake3.hash a = Blake3.hash b

/-- Whatever was written to two stores and in which order, the bytes hashed for them are the same exactly
if they hold the same hashes, so their digests are the same if they do, and otherwise only where those very
bytes collide. A comparison reports convergence exactly if the digests are the same, and else the numbers of
hashes that only one side holds, which are not both zero. -/
theorem digests_decide_equality (left : near.Reachable Set.univ) (right : far.Reachable Set.univ) :
    ∃ ours theirs : List Hash, near.hashes = .ok ours ∧ far.hashes = .ok theirs ∧
      near.setDigest = .ok (Blake3.hash (setBytes ours)) ∧
      far.setDigest = .ok (Blake3.hash (setBytes theirs)) ∧
      (setBytes ours = setBytes theirs ↔ hashSet near.log = hashSet far.log) ∧
      (near.setDigest = far.setDigest ↔
        hashSet near.log = hashSet far.log ∨ Blake3.Collide (setBytes ours) (setBytes theirs)) ∧
      (near.compareWith far = .ok .converged ↔ near.setDigest = far.setDigest) ∧
      (near.setDigest ≠ far.setDigest →
        ∃ localOnly remoteOnly, near.compareWith far = .ok (.diverged localOnly remoteOnly) ∧
          localOnly = (hashSet near.log \ hashSet far.log).card ∧
          remoteOnly = (hashSet far.log \ hashSet near.log).card ∧ 0 < localOnly + remoteOnly) := by
  have lists := left.filed.lists
  have lists' := right.filed.lists
  have bytes := setBytes_eq_iff left.nodup right.nodup
  have digests : near.setDigest = far.setDigest ↔
      Blake3.hash (setBytes (hashesIn near.log)) = Blake3.hash (setBytes (hashesIn far.log)) := by
    rw [lists.setDigest_eq, lists'.setDigest_eq, Except.ok.injEq]
  refine ⟨hashesIn near.log, hashesIn far.log, lists.hashes_eq, lists'.hashes_eq, lists.setDigest_eq,
    lists'.setDigest_eq, bytes, ?_, ?_, fun apart => ?_⟩
  · rw [digests, hashSet, hashSet, ← bytes]
    constructor
    · intro same
      exact or_iff_not_imp_left.mpr fun apart => ⟨apart, same⟩
    · rintro (same | collide)
      · rw [same]
      · exact collide.2
  · rw [digests, Store.compareWith_eq lists lists']
    split <;> simp_all
  · have apart := mt digests.mpr apart
    rw [Store.compareWith_eq lists lists', if_neg apart]
    refine ⟨_, _, rfl, rfl, rfl, Nat.pos_of_ne_zero fun none => apart (congrArg Blake3.hash (bytes.mpr ?_))⟩
    obtain ⟨within, beyond⟩ := Nat.add_eq_zero_iff.mp none
    exact (Finset.sdiff_eq_empty_iff_subset.mp (Finset.card_eq_zero.mp within)).antisymm
      (Finset.sdiff_eq_empty_iff_subset.mp (Finset.card_eq_zero.mp beyond))

/-- Two records come in two orders, to a store in memory and to a durable one; a third lacks one of them. -/
theorem digests_decide_equality_of_three :
    let near := (Store.inMemory.write [Sample.trunk, Sample.twig]).2
    let far := (Store.durable.write [Sample.twig, Sample.trunk, Sample.twig]).2
    let short := (Store.durable.write [Sample.twig]).2
    near.compareWith far = .ok .converged ∧ near.compareWith short = .ok (.diverged 1 0) := by
  intro near far short
  have left : near.Reachable Set.univ := .write .inMemory fun _ _ => Set.mem_univ _
  have right : far.Reachable Set.univ := .write .durable fun _ _ => Set.mem_univ _
  have third : short.Reachable Set.univ := .write .durable fun _ _ => Set.mem_univ _
  have apart : near.setDigest ≠ short.setDigest := by
    rw [left.filed.lists.setDigest_eq, third.filed.lists.setDigest_eq, setBytes, setBytes,
      List.mergeSort_of_pairwise (by decide), List.mergeSort_of_pairwise (by decide)]
    decide +kernel
  obtain ⟨_, _, -, -, -, -, -, equal, converged, -⟩ := digests_decide_equality left right
  obtain ⟨_, _, -, -, -, -, -, -, -, counted⟩ := digests_decide_equality left third
  obtain ⟨localOnly, remoteOnly, compared, rfl, rfl, -⟩ := counted apart
  refine ⟨converged.mpr (equal.mpr (Or.inl (by decide))), ?_⟩
  rw [compared]
  decide

end HashLog
