import HashLog.Graph.Basic
import HashLog.Proofs.Graph.Frontiers
/-!
A graph with the indexes that make its upkeep cheap. Begins are kept twice: in buckets under the
predecessor for which they wait, so that a new record retires all that wait for it by dropping one
bucket, and as a set, for membership. Known hashes, predecessors and successors have a table each.
`Matches` ties these copies to each other through the graph that they stand for; every addition keeps
it, and a graph kept in this way answers as `LogGraph` does (`IndexedGraph.Matches.agrees`).
-/
namespace HashLog

/-- Lists in the same strict order with the same members are equal. -/
theorem eq_of_ascending {α : Type} {cmp : α → α → Ordering} [Std.OrientedCmp cmp] {xs ys : List α}
    (left : xs.Pairwise fun a b => cmp a b = .lt) (right : ys.Pairwise fun a b => cmp a b = .lt)
    (same : ∀ a, a ∈ xs ↔ a ∈ ys) : xs = ys := by
  have asymm (a b : α) (below : cmp a b = .lt) (above : cmp b a = .lt) : False := by
    simp [Std.OrientedCmp.gt_of_lt below] at above
  have distinct {zs : List α} (ascending : zs.Pairwise fun a b => cmp a b = .lt) : zs.Nodup := by
    refine ascending.imp ?_
    rintro a b below rfl
    exact asymm a a below below
  have perm := (List.perm_ext_iff_of_nodup (distinct left) (distinct right)).mpr same
  exact perm.eq_of_pairwise (fun a b _ _ below above => (asymm a b below above).elim) left right

/-- A frontier with its begins in buckets. -/
structure Buckets where
  /-- The begins that wait for a hash, in the order of arrival; those under the null hash wait for
  nothing. -/
  waiting : Std.TreeMap Hash (List Hash)
  /-- The same begins. -/
  begins : HashSet
  ends : HashSet

namespace Buckets

def empty : Buckets := ⟨∅, ∅, ∅⟩

/-- Makes a hash a begin; one that is a begin already stays in its bucket. -/
def addBegin (b : Buckets) (hash prev : Hash) : Buckets :=
  if b.begins.contains hash then b
  else { b with
    waiting := b.waiting.insert prev (b.waiting.getD prev [] ++ [hash])
    begins := b.begins.insert hash }

/-- Drops the bucket of the begins that were waiting for this record. -/
def retire (b : Buckets) (hash : Hash) : Buckets :=
  { b with
    waiting := b.waiting.erase hash
    begins := (b.waiting.getD hash []).foldl (fun begins begin => begins.erase begin) b.begins }

/-- Accounts for a new record. -/
def apply (b : Buckets) (hash prev : Hash) (prevKnown hasSuccessor : Bool) : Buckets :=
  let b := if prev.isNull || !prevKnown then b.addBegin hash prev else b
  let b := if hasSuccessor then b else { b with ends := b.ends.insert hash }
  let b := b.retire hash
  if prev.isNull then b else { b with ends := b.ends.erase prev }

def isBegin (b : Buckets) (hash : Hash) : Bool := b.begins.contains hash

def isEnd (b : Buckets) (hash : Hash) : Bool := b.ends.contains hash

/-- The begins of all buckets, sorted and each once. -/
def beginList (b : Buckets) : List Hash :=
  (HashSet.ofList (b.waiting.toList.flatMap Prod.snd)).toList

/-- The begins of all buckets with the hashes that they wait for, sorted and each once. -/
def beginEdges (b : Buckets) : List (Hash × Hash) :=
  (Std.TreeSet.ofList
    (b.waiting.toList.flatMap fun (prev, hashes) => hashes.map fun hash => (hash, prev))
    lexOrd.compare).toList

def endList (b : Buckets) : List Hash := b.ends.toList

/-- The buckets and the set hold the begins of this frontier. -/
structure Matches (b : Buckets) (f : Frontier) : Prop where
  waiting : ∀ hash prev, hash ∈ b.waiting.getD prev [] ↔ f.begins[hash]? = some prev
  begins : ∀ hash, hash ∈ b.begins ↔ hash ∈ f.begins
  ends : b.ends = f.ends

variable {b : Buckets} {f : Frontier} {hash prev : Hash}

theorem matches_empty : empty.Matches .empty :=
  ⟨by simp [empty, Frontier.empty], by simp [empty, Frontier.empty], rfl⟩

theorem Matches.addBegin (same : b.Matches f) : (b.addBegin hash prev).Matches (f.addBegin hash prev) := by
  by_cases known : hash ∈ f.begins
  · have kept : b.addBegin hash prev = b := if_pos (by simpa using (same.begins hash).mpr known)
    rw [kept]
    refine ⟨?_, ?_, same.ends⟩
    · intro other named
      rw [same.waiting, Frontier.addBegin, Std.TreeMap.getElem?_insertIfNew]
      by_cases own : hash = other
      · subst own; simp [known]
      · simp [own]
    · intro other
      rw [same.begins, Frontier.addBegin, Std.TreeMap.mem_insertIfNew]
      by_cases own : hash = other
      · subst own; simp [known]
      · simp [own]
  · have unlisted : f.begins[hash]? = none := Std.TreeMap.getElem?_eq_none known
    have added : b.addBegin hash prev = _ := if_neg (by simpa using (same.begins hash).not.mpr known)
    rw [added]
    refine ⟨?_, ?_, same.ends⟩
    · intro other named
      have old := same.waiting other named
      rw [Frontier.begins_addBegin unlisted, Std.TreeMap.getD_insert]
      by_cases bucket : prev = named
      · subst bucket
        by_cases own : other = hash
        · subst own; simp
        · simp [own, old]
      · by_cases own : other = hash
        · subst own; simp [bucket, old, unlisted]
        · simp [bucket, own, old]
    · intro other
      simp only [Frontier.addBegin, Std.TreeSet.mem_insert, Std.TreeMap.mem_insertIfNew, same.begins]

private theorem mem_foldl_erase {hashes : List Hash} {set : HashSet} :
    hash ∈ hashes.foldl (fun set erased => set.erase erased) set ↔ hash ∈ set ∧ hash ∉ hashes := by
  induction hashes generalizing set with
  | nil => simp
  | cons first rest ih =>
    rw [List.foldl_cons, ih]
    simp only [Std.TreeSet.mem_erase, Std.LawfulEqCmp.compare_eq_iff_eq, ne_eq, List.mem_cons, not_or]
    constructor
    · rintro ⟨⟨other, listed⟩, unlisted⟩
      exact ⟨listed, fun same => other same.symm, unlisted⟩
    · rintro ⟨listed, other, unlisted⟩
      exact ⟨⟨fun same => other same.symm, listed⟩, unlisted⟩

theorem Matches.retire (same : b.Matches f) : (b.retire hash).Matches (f.retire hash) := by
  refine ⟨?_, ?_, same.ends⟩
  · intro other named
    rw [Frontier.begins_retire, ← same.waiting, Buckets.retire, Std.TreeMap.getD_erase]
    by_cases own : hash = named
    · simp [own]
    · simp [own, Ne.symm own]
  · intro other
    have kept : other ∈ (f.retire hash).begins ↔ ∃ named, f.begins[other]? = some named ∧ named ≠ hash := by
      rw [← Std.TreeMap.isSome_getElem?_iff_mem, Option.isSome_iff_exists]
      simp only [Frontier.begins_retire]
    rw [kept, Buckets.retire, mem_foldl_erase, same.begins, same.waiting, ← Std.TreeMap.isSome_getElem?_iff_mem,
      Option.isSome_iff_exists]
    grind

theorem Matches.apply (same : b.Matches f) (prevKnown hasSuccessor : Bool) :
    (b.apply hash prev prevKnown hasSuccessor).Matches (f.apply hash prev prevKnown hasSuccessor) := by
  -- both sides change their ends alike, so only the begins need an argument of their own
  have withEnds {b : Buckets} {f : Frontier} (same : b.Matches f) (change : HashSet → HashSet) :
      { b with ends := change b.ends : Buckets }.Matches { f with ends := change f.ends } :=
    ⟨same.waiting, same.begins, congrArg change same.ends⟩
  have begun : (if prev.isNull || !prevKnown then b.addBegin hash prev else b).Matches
      (if prev.isNull || !prevKnown then f.addBegin hash prev else f) := by
    split
    · exact same.addBegin
    · exact same
  unfold Buckets.apply Frontier.apply
  generalize (if (prev.isNull || !prevKnown) = true then b.addBegin hash prev else b) = began at begun ⊢
  generalize (if (prev.isNull || !prevKnown) = true then f.addBegin hash prev else f) = begins at begun ⊢
  have ended : (if hasSuccessor then began else { began with ends := began.ends.insert hash }).Matches
      (if hasSuccessor then begins else { begins with ends := begins.ends.insert hash }) := by
    split
    · exact begun
    · exact withEnds begun fun ends => ends.insert hash
  dsimp only
  split
  · exact ended.retire
  · exact withEnds ended.retire fun ends => ends.erase prev

private theorem Matches.mem_buckets (same : b.Matches f) :
    (∃ hashes, (prev, hashes) ∈ b.waiting.toList ∧ hash ∈ hashes) ↔ f.begins[hash]? = some prev := by
  rw [← same.waiting, Std.TreeMap.getD_eq_getD_getElem?]
  simp only [Std.TreeMap.mem_toList_iff_getElem?_eq_some]
  cases b.waiting[prev]? <;> simp

theorem Matches.beginList_eq (same : b.Matches f) : b.beginList = f.beginList := by
  apply eq_of_ascending Std.TreeSet.ordered_toList Std.TreeMap.ordered_keys
  intro hash
  rw [Std.TreeSet.mem_toList, HashSet.mem_ofList, List.mem_flatMap, Std.TreeMap.mem_keys,
    ← Std.TreeMap.isSome_getElem?_iff_mem, Option.isSome_iff_exists]
  simp only [Prod.exists, same.mem_buckets]

theorem Matches.beginEdges_eq (same : b.Matches f) : b.beginEdges = f.beginEdges := by
  have ascending : f.beginEdges.Pairwise fun a b => lexOrd.compare a b = .lt := by
    refine f.begins.ordered_keys_toList.imp ?_
    intro a b below
    change (compare a.1 b.1).then (compare a.2 b.2) = .lt
    rw [below]
    rfl
  apply eq_of_ascending Std.TreeSet.ordered_toList ascending
  rintro ⟨hash, prev⟩
  rw [Std.TreeSet.mem_toList, Std.TreeSet.mem_ofList, List.contains_iff_mem, List.mem_flatMap,
    Frontier.beginEdges, Std.TreeMap.mem_toList_iff_getElem?_eq_some, ← same.mem_buckets]
  simp only [List.mem_map, Prod.exists, Prod.mk.injEq]
  constructor
  · rintro ⟨_, hashes, listed, _, member, rfl, rfl⟩
    exact ⟨hashes, listed, member⟩
  · rintro ⟨hashes, listed, member⟩
    exact ⟨prev, hashes, listed, hash, member, rfl, rfl⟩

theorem Matches.isBegin_eq (same : b.Matches f) : b.isBegin hash = f.isBegin hash := by
  rw [Bool.eq_iff_iff, isBegin, Frontier.isBegin, Std.TreeSet.contains_iff_mem,
    Std.TreeMap.contains_iff_mem, same.begins]

end Buckets

/-- A graph with a table for each question that is asked of it. -/
structure IndexedGraph where
  nodes : HashSet
  /-- The predecessors of the records that have one. -/
  backward : Std.TreeMap Hash Hash
  forward : Std.TreeMap Hash (List Hash)
  frontier : Buckets

namespace IndexedGraph

def empty : IndexedGraph := ⟨∅, ∅, ∅, .empty⟩

/-- Adds a record and tells whether it was new. -/
def insert (x : IndexedGraph) (hash prev : Hash) : Bool × IndexedGraph :=
  if x.nodes.contains hash then (false, x)
  else
    let nodes := x.nodes.insert hash
    let backward := if prev.isNull then x.backward else x.backward.insert hash prev
    let forward :=
      if prev.isNull then x.forward
      else x.forward.insert prev (x.forward.getD prev [] ++ [hash])
    let prevKnown := !prev.isNull && nodes.contains prev
    (true, ⟨nodes, backward, forward,
      x.frontier.apply hash prev prevKnown (forward.contains hash)⟩)

/-- Adds records in order and counts the new ones. -/
def ingest (x : IndexedGraph) (edges : Edges) : Nat × IndexedGraph :=
  edges.foldl
    (fun (added, x) (hash, prev) =>
      let (new, x) := x.insert hash prev
      (if new then added + 1 else added, x))
    (0, x)

/-- The recorded predecessor of a known hash: null where none is recorded. -/
def prevOf (x : IndexedGraph) (hash : Hash) : Option Hash :=
  if x.nodes.contains hash then some (x.backward.getD hash Hash.null) else none

/-- The tables hold what this graph holds. -/
structure Matches (x : IndexedGraph) (g : LogGraph) : Prop where
  nodes : ∀ hash, hash ∈ x.nodes ↔ hash ∈ g.preds
  backward : ∀ hash prev : Hash,
    x.backward[hash]? = some prev ↔ g.preds[hash]? = some prev ∧ prev ≠ Hash.null
  forward : x.forward = g.succs
  frontier : x.frontier.Matches g.frontier

variable {x : IndexedGraph} {g : LogGraph} {hash prev : Hash}

theorem matches_empty : empty.Matches .empty :=
  ⟨by simp [empty, LogGraph.empty], by simp [empty, LogGraph.empty], rfl, Buckets.matches_empty⟩

theorem Matches.insert (same : x.Matches g) (hash prev : Hash) :
    (x.insert hash prev).1 = (g.insert hash prev).1 ∧
      (x.insert hash prev).2.Matches (g.insert hash prev).2 := by
  have known : x.nodes.contains hash = g.contains hash := by
    rw [Bool.eq_iff_iff, Std.TreeSet.contains_iff_mem, LogGraph.contains,
      Std.TreeMap.contains_iff_mem, same.nodes]
  unfold IndexedGraph.insert LogGraph.insert
  rw [known]
  by_cases found : g.contains hash = true
  · simpa only [found, if_true, true_and] using same
  · have absent : hash ∉ g.preds := by simpa [LogGraph.contains] using found
    simp only [found, Bool.false_eq_true, if_false, true_and]
    have nodes : ∀ other, other ∈ x.nodes.insert hash ↔ other ∈ g.preds.insert hash prev := by
      intro other
      rw [Std.TreeSet.mem_insert, Std.TreeMap.mem_insert, same.nodes]
    have prevKnown : (x.nodes.insert hash).contains prev = (g.preds.insert hash prev).contains prev := by
      rw [Bool.eq_iff_iff, Std.TreeSet.contains_iff_mem, Std.TreeMap.contains_iff_mem, nodes]
    refine ⟨nodes, ?_, ?_, ?_⟩
    · intro other named
      have old := same.backward other named
      have unlisted : g.preds[hash]? = none := Std.TreeMap.getElem?_eq_none absent
      simp only [LogGraph.add, Std.TreeMap.getElem?_insert, Std.LawfulEqCmp.compare_eq_iff_eq]
      by_cases own : hash = other
      · subst own
        by_cases null : prev = Hash.null
        · have absurd : some Hash.null = some named → named = Hash.null := by rintro ⟨⟩; rfl
          simpa [null, old, unlisted] using absurd
        · have kept : some prev = some named → named ≠ Hash.null := by rintro ⟨⟩; exact null
          simpa [null] using kept
      · by_cases null : prev = Hash.null
        · simp [null, own, old]
        · simp [null, own, Std.TreeMap.getElem?_insert, old]
    · rw [LogGraph.add, LogGraph.nextOf, same.forward]
    · rw [LogGraph.add, LogGraph.nextOf, same.forward, prevKnown]
      exact same.frontier.apply _ _

/-- Adding records to both keeps them in step, with the same count of new ones. -/
theorem Matches.ingest {edges : Edges} (same : x.Matches g) :
    (x.ingest edges).1 = (g.ingest edges).1 ∧ (x.ingest edges).2.Matches (g.ingest edges).2 := by
  unfold IndexedGraph.ingest LogGraph.ingest
  generalize 0 = added
  induction edges generalizing x g added with
  | nil => exact ⟨rfl, same⟩
  | cons edge rest ih =>
    obtain ⟨hash, prev⟩ := edge
    obtain ⟨answer, after⟩ := same.insert hash prev
    simp only [List.foldl_cons, answer]
    exact ih after _

/-- Every question to the tables has the answer that the graph gives. -/
structure Agrees (x : IndexedGraph) (g : LogGraph) : Prop where
  nodes : x.nodes.toList = g.nodes
  contains : ∀ hash, x.nodes.contains hash = g.contains hash
  prevOf : ∀ hash, x.prevOf hash = g.prevOf hash
  backward : x.backward.toList = g.backwardEdges
  forward : x.forward.toList = g.forwardEdges
  begins : x.frontier.beginList = g.frontier.beginList
  beginEdges : x.frontier.beginEdges = g.frontier.beginEdges
  ends : x.frontier.endList = g.frontier.endList
  isBegin : ∀ hash, x.frontier.isBegin hash = g.frontier.isBegin hash
  isEnd : ∀ hash, x.frontier.isEnd hash = g.frontier.isEnd hash

theorem Matches.agrees (same : x.Matches g) : x.Agrees g where
  nodes := by
    apply eq_of_ascending Std.TreeSet.ordered_toList Std.TreeMap.ordered_keys
    intro hash
    rw [Std.TreeSet.mem_toList, Std.TreeMap.mem_keys, same.nodes]
  contains hash := by
    rw [Bool.eq_iff_iff, Std.TreeSet.contains_iff_mem, LogGraph.contains,
      Std.TreeMap.contains_iff_mem, same.nodes]
  prevOf hash := by
    have recorded := same.backward hash
    by_cases known : hash ∈ g.preds
    · obtain ⟨prev, found⟩ := Option.isSome_iff_exists.mp (Std.TreeMap.isSome_getElem?_iff_mem.mpr known)
      have listed : x.nodes.contains hash = true := by simpa using (same.nodes hash).mpr known
      rw [IndexedGraph.prevOf, if_pos listed, LogGraph.prevOf, found]
      by_cases null : prev = Hash.null
      · have unrecorded : x.backward[hash]? = none := by
          rw [Option.eq_none_iff_forall_not_mem]
          intro other named
          obtain ⟨named, nonNull⟩ := (recorded other).mp named
          rw [found] at named
          exact nonNull (Option.some.inj named ▸ null)
        rw [Std.TreeMap.getD_eq_getD_getElem?, unrecorded, null]
        rfl
      · rw [Std.TreeMap.getD_eq_getD_getElem?, (recorded prev).mpr ⟨found, null⟩]
        rfl
    · have unlisted : ¬ x.nodes.contains hash = true := by simpa using (same.nodes hash).not.mpr known
      rw [IndexedGraph.prevOf, if_neg unlisted, LogGraph.prevOf, Std.TreeMap.getElem?_eq_none known]
  backward := by
    have left : x.backward.toList.Pairwise fun a b => compareOn Prod.fst a b = .lt :=
      Std.TreeMap.ordered_keys_toList
    have right : g.backwardEdges.Pairwise fun a b => compareOn Prod.fst a b = .lt :=
      Std.TreeMap.ordered_keys_toList.filter _
    apply eq_of_ascending left right
    rintro ⟨hash, prev⟩
    simp [LogGraph.backwardEdges, Std.TreeMap.mem_toList_iff_getElem?_eq_some, same.backward]
  forward := by rw [same.forward, LogGraph.forwardEdges]
  begins := same.frontier.beginList_eq
  beginEdges := same.frontier.beginEdges_eq
  ends := congrArg Std.TreeSet.toList same.frontier.ends
  isBegin _ := same.frontier.isBegin_eq
  isEnd hash := by rw [Buckets.isEnd, Frontier.isEnd, same.frontier.ends]

end IndexedGraph

end HashLog
