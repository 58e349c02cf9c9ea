import HashLog.Proofs.Graph.Lineage
import Mathlib.Data.List.Nodup
/-!
Logs without forks. Where no two records name the same predecessor, all that leads to a record or
descends from one stands in one line (`Joined`), so the records that a replica shows fall into runs
without gaps. The records of a single chain are such a log (`IsLine.linear`).
-/
namespace HashLog

/-- A consistent set of records of which no two name the same predecessor. -/
structure Linear (records : Set Record) : Prop extends Consistent records where
  next_unique : ∀ {prev child other : Hash}, Names records child prev → Names records other prev →
    child = other

variable {records : Set Record} {shown : Finset Hash} {hash other third : Hash}

theorem Linear.joined_trans (linear : Linear records) (first : Joined records shown hash other)
    (second : Joined records shown other third) : Joined records shown hash third := by
  have forks : Relator.RightUnique (Parent records shown) := fun _ _ _ step step' =>
    linear.next_unique step.2.2 step'.2.2
  have merges : Relator.RightUnique (Function.swap (Parent records shown)) := fun _ _ _ step step' =>
    linear.names_unique step.2.2 step'.2.2
  rcases first with up | down
  · rcases second with up' | down'
    · exact Or.inl (up.trans up')
    · -- both lead to the same record, and each record has one predecessor
      have total := Relation.ReflTransGen.total_of_right_unique merges
        (Relation.reflTransGen_swap.mpr up) (Relation.reflTransGen_swap.mpr down')
      exact total.symm.imp Relation.reflTransGen_swap.mp Relation.reflTransGen_swap.mp
  · rcases second with up' | down'
    · exact Relation.ReflTransGen.total_of_right_unique forks down up'
    · exact Or.inr (down'.trans down)

/-! ## Chains -/

/-- Records each of which names the one before it as its predecessor. -/
structure IsLine (chain : List Record) : Prop where
  links : chain.IsChain fun before next => next.prev = before.hash
  first : ∀ r ∈ chain.head?, r.prev ∉ hashesIn chain
  distinct : (hashesIn chain).Nodup
  no_null : Hash.null ∉ hashesIn chain

namespace IsLine

variable {chain : List Record} (line : IsLine chain)
include line

theorem prev_getElem {i : Nat} (below : i + 1 < chain.length) : chain[i + 1].prev = chain[i].hash :=
  List.isChain_iff_getElem.mp line.links i below

theorem getElem_inj {i j : Nat} {hi : i < chain.length} {hj : j < chain.length} :
    chain[i].hash = chain[j].hash ↔ i = j := by
  have inj := @List.Nodup.getElem_inj_iff _ _ line.distinct i (by simpa [hashesIn]) j
    (by simpa [hashesIn])
  simpa [hashesIn] using inj

/-- The first record names none of the chain, and every other one the one before it. -/
theorem prev_cases {r : Record} (member : r ∈ chain) : ∃ i, ∃ below : i < chain.length, chain[i] = r ∧
    (i = 0 ∧ r.prev ∉ hashesIn chain ∨
      ∃ j, ∃ before : j < chain.length, i = j + 1 ∧ r.prev = chain[j].hash) := by
  obtain ⟨i, below, rfl⟩ := List.mem_iff_getElem.mp member
  refine ⟨i, below, rfl, ?_⟩
  cases i with
  | zero => exact Or.inl ⟨rfl, line.first _ (by simp [List.head?_eq_getElem?, below])⟩
  | succ j => exact Or.inr ⟨j, by omega, rfl, line.prev_getElem below⟩

omit line in
private theorem mem_hashesIn_getElem {i : Nat} (below : i < chain.length) :
    chain[i].hash ∈ hashesIn chain :=
  mem_hashesIn.mpr ⟨_, List.getElem_mem below, rfl⟩

/-- Places in the chain fall along predecessors. -/
theorem consistent : Consistent {r | r ∈ chain} := by
  have place : ∀ {i : Nat} (below : i < chain.length), (hashesIn chain).idxOf chain[i].hash = i := by
    intro i below
    have found := line.distinct.idxOf_getElem i (by simpa [hashesIn] using below)
    simpa [hashesIn] using found
  refine .of_rank ?_ ?_
    (fun hash => if hash ∈ hashesIn chain then (hashesIn chain).idxOf hash + 1 else 0) ?_
  · intro r rIn s sIn same
    obtain ⟨i, hi, rfl⟩ := List.mem_iff_getElem.mp rIn
    obtain ⟨j, hj, rfl⟩ := List.mem_iff_getElem.mp sIn
    obtain rfl := line.getElem_inj.mp same
    rfl
  · intro r member null
    exact line.no_null (null ▸ mem_hashesIn.mpr ⟨r, member, rfl⟩)
  · intro r member
    obtain ⟨i, below, rfl, ⟨rfl, unknown⟩ | ⟨j, before, rfl, named⟩⟩ := line.prev_cases member
    · simp [unknown, mem_hashesIn_getElem below]
    · simp [named, mem_hashesIn_getElem below, mem_hashesIn_getElem before, place]

/-- The records of a chain are consistent, and have no forks. -/
theorem linear : Linear {r | r ∈ chain} := by
  refine { line.consistent with next_unique := ?_ }
  rintro prev child other ⟨r, rIn, rfl, rfl⟩ ⟨s, sIn, rfl, same⟩
  obtain ⟨i, hi, rfl, ⟨rfl, unknown⟩ | ⟨k, before, rfl, named⟩⟩ := line.prev_cases rIn
  · obtain ⟨j, hj, rfl, ⟨rfl, -⟩ | ⟨l, before', rfl, named'⟩⟩ := line.prev_cases sIn
    · rfl
    · exact absurd (mem_hashesIn_getElem before') (named' ▸ same ▸ unknown)
  · obtain ⟨j, hj, rfl, ⟨rfl, unknown'⟩ | ⟨l, before', rfl, named'⟩⟩ := line.prev_cases sIn
    · exact absurd (mem_hashesIn_getElem before) (named ▸ same ▸ unknown')
    · obtain rfl := line.getElem_inj.mp (named.symm.trans (same.symm.trans named'))
      rfl

end IsLine

end HashLog
