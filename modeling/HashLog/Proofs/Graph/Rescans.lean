import HashLog.Proofs.Graph.Indexed
import HashLog.Proofs.Graph.Shown
/-!
What a graph keeps up record by record, against a look at all of its records. `Scanned` says that the
lists that a graph answers with are those that a scan of its known hashes and their recorded
predecessors finds. Additions in any order and with any repetition lead to such a graph, and where
they offer one predecessor for each hash, the order in which they come does not show.
-/
namespace HashLog

namespace Edges

/-- No hash is offered with two predecessors. -/
def Functional (links : Edges) : Prop := ∀ a ∈ links, ∀ b ∈ links, a.1 = b.1 → a = b

variable {links more : Edges} {hash prev : Hash}

theorem addAll_append {others : Edges} :
    links.addAll (more ++ others) = (links.addAll more).addAll others := by
  simp [addAll, List.foldl_append]

theorem prevOf_add {link : Hash × Hash} :
    (links.add link).prevOf hash = (links.prevOf hash).or (Edges.prevOf [link] hash) := by
  by_cases known : link.1 ∈ links.known
  · rw [add, if_pos known]
    cases found : links.prevOf hash with
    | some prev => rfl
    | none =>
      have differs : hash ∉ Edges.known [link] := by
        rintro (_ | ⟨_, ⟨⟩⟩)
        exact prevOf_eq_none.mp found known
      rw [prevOf_eq_none.mpr differs]
      rfl
  · rw [add, if_neg known, prevOf_append]

/-- Of the predecessors offered for a hash, the first is the one recorded. -/
theorem prevOf_addAll :
    (links.addAll more).prevOf hash = (links.prevOf hash).or (more.prevOf hash) := by
  induction more generalizing links with
  | nil => simp [addAll, prevOf]
  | cons link rest ih =>
    rw [addAll, List.foldl_cons, ← addAll, ih, prevOf_add, Option.or_assoc, ← prevOf_append]
    rfl

theorem Functional.prevOf_eq_some (functional : links.Functional) :
    links.prevOf hash = some prev ↔ (hash, prev) ∈ links := by
  refine ⟨mem_of_prevOf, ?_⟩
  intro member
  obtain ⟨other, found⟩ := Option.isSome_iff_exists.mp (prevOf_isSome.mpr (known_of_mem member))
  rw [found, (Prod.mk.inj (functional _ (mem_of_prevOf found) _ member rfl)).2]

/-- Nothing is lost and nothing added where each hash is offered with one predecessor. -/
theorem Functional.mem_addAll {link : Hash × Hash} (functional : links.Functional)
    (proper : (Edges.addAll [] links).Proper) : link ∈ Edges.addAll [] links ↔ link ∈ links := by
  obtain ⟨hash, prev⟩ := link
  rw [← Edges.prevOf_eq_some proper, prevOf_addAll, ← functional.prevOf_eq_some]
  rfl

theorem nodup_nextOf (proper : links.Proper) : (links.nextOf hash).Nodup :=
  proper.nodup.sublist (List.filter_sublist.map Prod.fst)

end Edges

/-- A call that adds records to a graph. -/
inductive Addition where
  | insert (hash prev : Hash)
  | ingest (edges : Edges)

/-- The records that a call offers, in order. -/
def Addition.edges : Addition → Edges
  | insert hash prev => [(hash, prev)]
  | ingest edges => edges

/-- The records that calls offer one after the other. -/
def offered (calls : List Addition) : Edges := calls.flatMap Addition.edges

namespace IndexedGraph

def perform (x : IndexedGraph) : Addition → IndexedGraph
  | .insert hash prev => (x.insert hash prev).2
  | .ingest edges => (x.ingest edges).2

def performAll (x : IndexedGraph) (calls : List Addition) : IndexedGraph := calls.foldl perform x

end IndexedGraph

namespace LogGraph

def perform (g : LogGraph) : Addition → LogGraph
  | .insert hash prev => (g.insert hash prev).2
  | .ingest edges => (g.ingest edges).2

def performAll (g : LogGraph) (calls : List Addition) : LogGraph := calls.foldl perform g

/-- The known hashes whose recorded predecessor is null or not known, by a scan. -/
def scanBegins (g : LogGraph) : List Hash :=
  g.nodes.filter fun hash => (g.prevOf hash).any fun prev => prev.isNull || !g.contains prev

/-- The known hashes that no known record names as predecessor, by a scan. -/
def scanEnds (g : LogGraph) : List Hash :=
  g.nodes.filter fun hash => g.nodes.all fun child => g.prevOf child != some hash

/-- The graph answers as a scan of its records does. -/
structure Scanned (g : LogGraph) : Prop where
  sorted : g.nodes.Pairwise fun a b => compare a b = .lt
  nodes : ∀ hash, hash ∈ g.nodes ↔ g.contains hash = true
  recorded : ∀ hash, (g.prevOf hash).isSome = g.contains hash
  begins : g.frontier.beginList = g.scanBegins
  ends : g.frontier.endList = g.scanEnds
  isBegin : ∀ hash, g.frontier.isBegin hash = true ↔ hash ∈ g.frontier.beginList
  isEnd : ∀ hash, g.frontier.isEnd hash = true ↔ hash ∈ g.frontier.endList
  beginEdges : g.frontier.beginEdges.map Prod.fst = g.frontier.beginList ∧
    ∀ hash prev, (hash, prev) ∈ g.frontier.beginEdges → g.prevOf hash = some prev
  backward : ∀ hash prev,
    (hash, prev) ∈ g.backwardEdges ↔ g.prevOf hash = some prev ∧ prev ≠ Hash.null
  forward : ∀ hash prev,
    (∃ children, (prev, children) ∈ g.forwardEdges ∧ hash ∈ children) ↔ (hash, prev) ∈ g.backwardEdges
  children : ∀ prev children, (prev, children) ∈ g.forwardEdges → children ≠ [] ∧ children.Nodup
  parents : (g.forwardEdges.map Prod.fst).Nodup
  insert : ∀ hash prev, g.contains hash = true → g.insert hash prev = (false, g)
  ingest : ∀ edges : Edges, (∀ edge ∈ edges, g.contains edge.1 = true) → g.ingest edges = (0, g)

/-- Two graphs differ at most in the order of the records that name one predecessor. -/
structure SameRecords (g g' : LogGraph) : Prop where
  nodes : g.nodes = g'.nodes
  backward : g.backwardEdges = g'.backwardEdges
  parents : g.forwardEdges.map Prod.fst = g'.forwardEdges.map Prod.fst
  children : ∀ prev, (g.nextOf prev).Perm (g'.nextOf prev)
  begins : g.frontier.beginList = g'.frontier.beginList
  beginEdges : g.frontier.beginEdges = g'.frontier.beginEdges
  ends : g.frontier.endList = g'.frontier.endList

end LogGraph

theorem IndexedGraph.Matches.performAll {x : IndexedGraph} {g : LogGraph} {calls : List Addition}
    (same : x.Matches g) : (x.performAll calls).Matches (g.performAll calls) := by
  induction calls generalizing x g with
  | nil => exact same
  | cons call rest ih =>
    apply ih
    cases call with
    | insert hash prev => exact (same.insert hash prev).2
    | ingest edges => exact same.ingest.2

namespace LogGraph

variable {g g' : LogGraph} {links links' : Edges} {hash prev : Hash}

theorem Holds.perform {call : Addition} (holds : g.Holds links)
    (nonNull : ∀ edge ∈ call.edges, edge.1 ≠ Hash.null) :
    (g.perform call).Holds (links.addAll call.edges) := by
  cases call with
  | insert hash prev => exact (holds.insert (nonNull _ List.mem_cons_self)).1
  | ingest edges => exact holds.ingest nonNull

theorem Holds.performAll {calls : List Addition} (holds : g.Holds links)
    (nonNull : ∀ edge ∈ offered calls, edge.1 ≠ Hash.null) :
    (g.performAll calls).Holds (links.addAll (offered calls)) := by
  induction calls generalizing g links with
  | nil => exact holds
  | cons call rest ih =>
    have split : offered (call :: rest) = call.edges ++ offered rest := List.flatMap_cons
    rw [split] at nonNull ⊢
    rw [Edges.addAll_append]
    apply ih (holds.perform fun edge member => nonNull edge (List.mem_append_left _ member))
    exact fun edge member => nonNull edge (List.mem_append_right _ member)

theorem mem_nodes : hash ∈ g.nodes ↔ g.contains hash = true := by
  rw [nodes, Std.TreeMap.mem_keys, contains, Std.TreeMap.contains_iff_mem]

theorem sorted_nodes : g.nodes.Pairwise fun a b => compare a b = .lt := Std.TreeMap.ordered_keys

theorem mem_backwardEdges :
    (hash, prev) ∈ g.backwardEdges ↔ g.prevOf hash = some prev ∧ prev ≠ Hash.null := by
  simp [backwardEdges, prevOf]

theorem insert_of_contains (known : g.contains hash = true) : g.insert hash prev = (false, g) :=
  if_pos known

theorem ingest_of_contains {edges : Edges} (known : ∀ edge ∈ edges, g.contains edge.1 = true) :
    g.ingest edges = (0, g) := by
  unfold LogGraph.ingest
  induction edges with
  | nil => rfl
  | cons edge rest ih =>
    simp only [List.foldl_cons, insert_of_contains (known edge List.mem_cons_self)]
    exact ih fun edge member => known edge (List.mem_cons_of_mem _ member)

section Holds

variable (holds : g.Holds links)
include holds

theorem Holds.prevOf_eq_some : g.prevOf hash = some prev ↔ (hash, prev) ∈ links := by
  rw [prevOf, holds.preds, Edges.prevOf_eq_some holds.proper]

theorem Holds.mem_scanBegins : hash ∈ g.scanBegins ↔ ∃ prev, links.Begins hash prev := by
  have unknown (prev : Hash) : g.contains prev = false ↔ prev ∉ links.known := by
    rw [← holds.contains_iff, Bool.not_eq_true]
  simp only [scanBegins, List.mem_filter, mem_nodes, holds.contains_iff, Option.any_eq_true,
    holds.prevOf_eq_some, Bool.or_eq_true, Hash.isNull_eq_true, Bool.not_eq_true', unknown, Edges.Begins]
  exact ⟨fun ⟨_, found⟩ => found, fun ⟨prev, found⟩ => ⟨Edges.known_of_mem found.1, prev, found⟩⟩

theorem Holds.mem_scanEnds : hash ∈ g.scanEnds ↔ links.Ends hash := by
  simp only [scanEnds, List.mem_filter, mem_nodes, holds.contains_iff, List.all_eq_true, bne_iff_ne,
    ne_eq, holds.prevOf_eq_some, Edges.Ends]
  exact and_congr_right fun _ =>
    ⟨fun none child named => none child (Edges.known_of_mem named) named, fun none child _ => none child⟩

theorem Holds.mem_forwardEdges {children : List Hash} : (prev, children) ∈ g.forwardEdges ↔
    prev ≠ Hash.null ∧ children ≠ [] ∧ children = links.nextOf prev := by
  rw [forwardEdges, Std.TreeMap.mem_toList_iff_getElem?_eq_some, holds.succs]
  split
  · rename_i empty
    simp only [reduceCtorEq, false_iff]
    rintro ⟨nonNull, nonempty, rfl⟩
    exact empty.elim nonNull nonempty
  · rename_i listed
    obtain ⟨nonNull, nonempty⟩ := not_or.mp listed
    rw [Option.some.injEq]
    exact ⟨fun same => ⟨nonNull, same ▸ nonempty, same.symm⟩, fun found => found.2.2.symm⟩

theorem Holds.mem_succs : prev ∈ g.succs ↔ prev ≠ Hash.null ∧ links.nextOf prev ≠ [] := by
  rw [← Std.TreeMap.isSome_getElem?_iff_mem, holds.succs, ← not_or]
  split <;> simp_all

theorem Holds.nextOf_null : g.nextOf Hash.null = [] := by
  rw [nextOf, Std.TreeMap.getD_eq_getD_getElem?, holds.succs, if_pos (Or.inl rfl)]
  rfl

/-- A graph of links answers as a scan of its records does. -/
theorem Holds.scanned : g.Scanned where
  sorted := sorted_nodes
  nodes _ := mem_nodes
  recorded hash := by
    rw [prevOf, contains, Std.TreeMap.contains_eq_isSome_getElem?]
  begins := by
    apply eq_of_ascending Std.TreeMap.ordered_keys (sorted_nodes.filter _)
    intro hash
    rw [← Frontier.beginList, holds.frontier.mem_beginList]
    exact holds.mem_scanBegins.symm
  ends := by
    apply eq_of_ascending Std.TreeSet.ordered_toList (sorted_nodes.filter _)
    intro hash
    rw [← Frontier.endList, holds.frontier.mem_endList]
    exact holds.mem_scanEnds.symm
  isBegin hash := by rw [holds.frontier.isBegin_iff, holds.frontier.mem_beginList]
  isEnd hash := by rw [holds.frontier.isEnd_iff, holds.frontier.mem_endList]
  beginEdges := by
    refine ⟨Std.TreeMap.map_fst_toList_eq_keys, ?_⟩
    intro hash prev listed
    rw [holds.prevOf_eq_some]
    exact (holds.frontier.mem_beginEdges.mp listed).1
  backward hash prev := mem_backwardEdges
  forward hash prev := by
    rw [mem_backwardEdges, holds.prevOf_eq_some, ← Edges.mem_nextOf]
    simp only [holds.mem_forwardEdges]
    constructor
    · rintro ⟨_, ⟨nonNull, -, rfl⟩, member⟩
      exact ⟨member, nonNull⟩
    · rintro ⟨member, nonNull⟩
      exact ⟨_, ⟨nonNull, List.ne_nil_of_mem member, rfl⟩, member⟩
  children prev children listed := by
    obtain ⟨-, nonempty, rfl⟩ := holds.mem_forwardEdges.mp listed
    exact ⟨nonempty, Edges.nodup_nextOf holds.proper⟩
  parents := by
    rw [forwardEdges, Std.TreeMap.map_fst_toList_eq_keys]
    exact Std.TreeMap.nodup_keys
  insert _ _ := insert_of_contains
  ingest _ := ingest_of_contains

/-- Graphs of the same links in two orders. -/
theorem Holds.sameRecords (holds' : g'.Holds links') (same : ∀ link, link ∈ links ↔ link ∈ links') :
    g.SameRecords g' := by
  have preds : g.preds.Equiv g'.preds := .of_forall_constGet?_eq fun hash => by
    ext prev
    exact holds.prevOf_eq_some.trans ((same _).trans holds'.prevOf_eq_some.symm)
  have children (prev : Hash) : (links.nextOf prev).Perm (links'.nextOf prev) := by
    apply (List.perm_ext_iff_of_nodup (Edges.nodup_nextOf holds.proper)
      (Edges.nodup_nextOf holds'.proper)).mpr
    intro child
    rw [Edges.mem_nextOf, Edges.mem_nextOf, same]
  have frontier : g.frontier.Alike g'.frontier :=
    holds.frontier.alike (holds'.frontier.congr fun link => (same link).symm)
  refine ⟨preds.keys_eq, congrArg (List.filter _) preds.toList_eq, ?_, ?_, frontier.beginList_eq,
    frontier.beginEdges_eq, frontier.endList_eq⟩
  · rw [forwardEdges, forwardEdges, Std.TreeMap.map_fst_toList_eq_keys,
      Std.TreeMap.map_fst_toList_eq_keys]
    apply eq_of_ascending Std.TreeMap.ordered_keys Std.TreeMap.ordered_keys
    intro prev
    have nonempty : links.nextOf prev ≠ [] ↔ links'.nextOf prev ≠ [] :=
      not_congr ⟨fun none => (none ▸ children prev).symm.eq_nil, fun none => (none ▸ children prev).eq_nil⟩
    -- a hash has a list of successors in the graph only if the list is not empty
    rw [Std.TreeMap.mem_keys, Std.TreeMap.mem_keys, holds.mem_succs, holds'.mem_succs, nonempty]
  · intro prev
    by_cases null : prev = Hash.null
    · rw [null, holds.nextOf_null, holds'.nextOf_null]
    · rw [holds.nextOf_eq null, holds'.nextOf_eq null]
      exact children prev

end Holds

/-- A graph is kept, by any calls that add records, as a scan of its records would make it. -/
theorem frontier_matches_rescan (calls : List Addition)
    (nonNull : ∀ edge ∈ offered calls, edge.1 ≠ Hash.null) :
    (∀ hash, (empty.performAll calls).prevOf hash = (offered calls).prevOf hash) ∧
      (empty.performAll calls).Scanned ∧
      (IndexedGraph.empty.performAll calls).Agrees (empty.performAll calls) ∧
      ∀ others, (∀ edge, edge ∈ offered others ↔ edge ∈ offered calls) →
        (offered calls).Functional →
        (empty.performAll calls).SameRecords (empty.performAll others) := by
  have holds : (empty.performAll calls).Holds (Edges.addAll [] (offered calls)) :=
    holds_empty.performAll nonNull
  refine ⟨?_, holds.scanned, ?_, ?_⟩
  · intro hash
    rw [LogGraph.prevOf, holds.preds, Edges.prevOf_addAll]
    rfl
  · exact (IndexedGraph.matches_empty.performAll).agrees
  · intro others same functional
    have functional' : (offered others).Functional := fun a left b right =>
      functional a ((same a).mp left) b ((same b).mp right)
    have holds' : (empty.performAll others).Holds (Edges.addAll [] (offered others)) :=
      holds_empty.performAll fun edge member => nonNull edge ((same edge).mp member)
    refine holds.sameRecords holds' ?_
    intro link
    rw [functional.mem_addAll holds.proper, functional'.mem_addAll holds'.proper, same]

/-- A record before its predecessor, one that names itself and one that comes twice. -/
theorem frontier_matches_rescan_of_gap :
    let a : Hash := ⟨.fill 32 1⟩
    let b : Hash := ⟨.fill 32 2⟩
    let c : Hash := ⟨.fill 32 3⟩
    let calls : List Addition := [.insert b a, .ingest [(c, c), (b, a)], .insert a .null]
    let others : List Addition := [.ingest [(a, .null), (b, a)], .insert c c]
    (empty.performAll calls).prevOf b = some a ∧ (empty.performAll calls).Scanned ∧
      (IndexedGraph.empty.performAll calls).Agrees (empty.performAll calls) ∧
      (empty.performAll calls).SameRecords (empty.performAll others) := by
  intro a b c calls others
  have nonNull : ∀ edge ∈ offered calls, edge.1 ≠ Hash.null := by decide
  have same : ∀ edge, edge ∈ offered others ↔ edge ∈ offered calls := by
    have offers : ∀ edge, edge ∈ offered others ↔ edge = (a, .null) ∨ edge = (b, a) ∨ edge = (c, c) := by
      simp [offered, others, Addition.edges]
    have offers' : ∀ edge,
        edge ∈ offered calls ↔ edge = (b, a) ∨ edge = (c, c) ∨ edge = (b, a) ∨ edge = (a, .null) := by
      simp [offered, calls, Addition.edges]
    intro edge
    rw [offers, offers']
    tauto
  obtain ⟨recorded, scanned, agrees, unordered⟩ := frontier_matches_rescan calls nonNull
  exact ⟨recorded b, scanned, agrees, unordered others same (by unfold Edges.Functional; decide)⟩

end LogGraph

end HashLog
