import HashLog.Exchange.Snapshot
import HashLog.Proofs.Store.Views
/-!
Registered records on top of a frozen graph. A snapshot keeps two layers and a frontier of its own,
which it updates from what the layers together showed before the record; a graph that takes in the
same records updates from what it holds after. They answer alike all the same
(`Snapshot.register_answersAs`), and so they do after any number of records while the store goes on
(`Snapshot.run_answersAs`), as long as the frozen graph agrees with the records that it was taken of.
-/
namespace HashLog

namespace LogGraph

/-- Only known records are listed as successors, and no list of them is empty. -/
structure Linked (g : LogGraph) : Prop where
  children : ∀ prev child, child ∈ g.nextOf prev → g.contains child = true
  listed : ∀ prev, g.succs.contains prev = true ↔ g.nextOf prev ≠ []

variable {g : LogGraph} {hash prev other : Hash}

theorem contains_add : (g.add hash prev).contains other = true ↔ hash = other ∨ g.contains other = true := by
  rw [contains, LogGraph.add, Std.TreeMap.contains_insert, Bool.or_eq_true, beq_iff_eq,
    Std.LawfulEqCmp.compare_eq_iff_eq, contains]

theorem prevOf_add :
    (g.add hash prev).prevOf other = if hash = other then some prev else g.prevOf other := by
  simp [LogGraph.add, prevOf, Std.TreeMap.getElem?_insert]

theorem nextOf_add : (g.add hash prev).nextOf other =
    g.nextOf other ++ if prev ≠ Hash.null ∧ prev = other then [hash] else [] := by
  by_cases null : prev = Hash.null
  · simp [LogGraph.add, nextOf, null]
  · by_cases named : prev = other
    · subst named
      simp [LogGraph.add, nextOf, null]
    · simp [LogGraph.add, nextOf, null, named, Std.TreeMap.getD_insert]

theorem size_add (fresh : g.contains hash = false) : (g.add hash prev).size = g.size + 1 := by
  have absent : hash ∉ g.preds := by
    rw [← Std.TreeMap.contains_iff_mem, ← contains, fresh]
    exact Bool.false_ne_true
  simp [LogGraph.add, size, Std.TreeMap.size_insert, absent]

theorem linked_empty : empty.Linked := ⟨by simp [empty, nextOf], by simp [empty, nextOf]⟩

theorem Linked.add (linked : g.Linked) : (g.add hash prev).Linked := by
  constructor
  · intro named child member
    rw [nextOf_add, List.mem_append] at member
    rw [contains_add]
    rcases member with old | new
    · exact Or.inr (linked.children named child old)
    · split at new
      · exact Or.inl (List.mem_singleton.mp new).symm
      · simp at new
  · intro named
    rw [nextOf_add]
    by_cases null : prev = Hash.null
    · simp [LogGraph.add, null, linked.listed]
    · by_cases same : prev = named
      · subst same
        simp [LogGraph.add, null]
      · simp [LogGraph.add, null, same, linked.listed, Std.TreeMap.contains_insert]

theorem Linked.insert (linked : g.Linked) : (g.insert hash prev).2.Linked := by
  unfold LogGraph.insert
  split
  · exact linked
  · exact linked.add

theorem Linked.ingest {links : Edges} (linked : g.Linked) : (g.ingest links).2.Linked := by
  rw [ingest_snd]
  induction links generalizing g with
  | nil => exact linked
  | cons link rest ih => exact ih linked.insert

theorem ingest_append {links more : Edges} : (g.ingest (links ++ more)).2 = ((g.ingest links).2.ingest more).2 := by
  simp only [ingest_snd, List.foldl_append]

theorem frontier_add : (g.add hash prev).frontier = g.frontier.apply hash prev
    (!prev.isNull && (g.add hash prev).contains prev) ((g.add hash prev).succs.contains hash) := rfl

end LogGraph

namespace Snapshot

variable {s : Snapshot} {store : Store} {g : LogGraph} {hash prev : Hash}

theorem register_of_missing (missing : (s.view store).contains hash = false) :
    s.register store hash prev = (true,
      { s with
        overlay := s.overlay.add hash prev
        frontier := s.frontier.apply hash prev (!prev.isNull && (s.view store).contains prev)
          (!((s.view store).nextHashes hash).isEmpty) }) := by
  have unregistered : s.overlay.contains hash = false := (Bool.or_eq_false_iff.mp missing).1
  simp only [Snapshot.register, missing, LogGraph.insert, unregistered, Bool.false_eq_true, if_false]

/-- The flags that a snapshot finds before it takes a record in are those that a graph finds after,
but for a record that names itself. -/
private theorem flags_eq (answers : (s.view store).AnswersAs g) (linked : g.Linked)
    (nonNull : hash ≠ Hash.null) (differs : prev ≠ hash) :
    (!prev.isNull && (s.view store).contains prev) =
        (!prev.isNull && (g.add hash prev).contains prev) ∧
      (!((s.view store).nextHashes hash).isEmpty) = (g.add hash prev).succs.contains hash := by
  constructor
  · by_cases null : prev = Hash.null
    · simp only [Hash.isNull_eq_true.mpr null, Bool.not_true, Bool.false_and]
    · have known : (g.add hash prev).contains prev = g.contains prev := by
        rw [Bool.eq_iff_iff, LogGraph.contains_add]
        simp [Ne.symm differs]
      rw [answers.contains prev null, known]
  · have unchanged : (g.add hash prev).nextOf hash = g.nextOf hash := by
      simp [LogGraph.nextOf_add, differs]
    rw [Bool.eq_iff_iff, linked.add.listed, unchanged, answers.nextHashes hash nonNull]
    simp

/-- A registered record shows as one that the graph takes in. -/
private theorem answersAs_add (answers : (s.view store).AnswersAs g) (linked : g.Linked)
    (nonNull : hash ≠ Hash.null) (missing : (s.view store).contains hash = false) :
    ((s.register store hash prev).2.view store).AnswersAs (g.add hash prev) := by
  have unknown : ¬ g.contains hash = true := by
    rw [← answers.contains hash nonNull, missing]
    exact Bool.false_ne_true
  rw [register_of_missing missing]
  apply GraphView.answersAs_of_alike
  · intro other known
    have shown := answers.contains other known
    rw [Bool.eq_iff_iff, LogGraph.contains_add, ← shown]
    simp [Snapshot.view, LogGraph.contains_add, or_assoc]
  · intro other known
    have shown := answers.prevHash other known
    simp only [Snapshot.view, LogGraph.prevOf_add] at shown ⊢
    by_cases own : hash = other
    · rw [if_pos own, if_pos own]
    · rw [if_neg own, if_neg own, shown]
  · intro other known
    have shown := answers.nextHashes other known
    -- what is below cannot list the new record, or the graph would know it, so the filter keeps it
    have unlisted : hash ∉ (s.base.view store).nextHashes other := by
      intro listed
      have member : hash ∈ (s.view store).nextHashes other := List.mem_append_left _ listed
      rw [shown] at member
      exact unknown (linked.children other hash member)
    rw [LogGraph.nextOf_add, ← shown]
    simp only [Snapshot.view, LogGraph.nextOf_add, List.filter_append, List.append_assoc]
    congr 2
    split
    · simpa using unlisted
    · rfl
  · rw [LogGraph.frontier_add]
    exact answers.frontier.apply (fun differs => (flags_eq answers linked nonNull differs).1)
      (fun differs => (flags_eq answers linked nonNull differs).2) nonNull

/-- Registering a record is taking it in. -/
theorem register_answersAs (prev : Hash) (answers : (s.view store).AnswersAs g) (linked : g.Linked)
    (nonNull : hash ≠ Hash.null) :
    (s.register store hash prev).1 = !g.contains hash ∧
      ((s.register store hash prev).2.view store).AnswersAs (g.insert hash prev).2 ∧
      (s.register store hash prev).2.registered =
        s.registered + if (s.register store hash prev).1 then 1 else 0 := by
  have known := answers.contains hash nonNull
  cases found : g.contains hash with
  | true =>
    have unchanged : s.register store hash prev = (false, s) := if_pos (known.trans found)
    have kept : g.insert hash prev = (false, g) := if_pos found
    rw [unchanged, kept]
    exact ⟨rfl, answers, rfl⟩
  | false =>
    have missing := known.trans found
    have added : (g.insert hash prev).2 = g.add hash prev := by simp [LogGraph.insert, found]
    refine ⟨by rw [register_of_missing missing]; rfl, ?_, ?_⟩
    · rw [added]
      exact answersAs_add answers linked nonNull missing
    · rw [register_of_missing missing]
      exact LogGraph.size_add (Bool.or_eq_false_iff.mp missing).1

/-- With nothing registered the frozen graph shows through. -/
theorem view_ofBase {base : Base} {cutoff : Nat} : (ofBase cutoff base).view store = base.view store := by
  have layered : (ofBase cutoff base).view store =
      { base.view store with frontier := base.frontier } := by
    simp [ofBase, Snapshot.view, LogGraph.empty, LogGraph.contains, LogGraph.prevOf, LogGraph.nextOf]
  rw [layered]
  cases base <;> rfl

@[simp] theorem base_register : (s.register store hash prev).2.base = s.base := by
  unfold Snapshot.register
  dsimp only
  split <;> rfl

/-- What happens while a snapshot is open: a received record is registered, or the store is
called. -/
inductive Event where
  | register (hash prev : Hash)
  | meanwhile (call : StoreCall)

/-- The link that an event registers. -/
def Event.links : Event → Edges
  | register hash prev => [(hash, prev)]
  | meanwhile _ => []

/-- The hashes of the records that an event brings. -/
def Event.hashes : Event → List Hash
  | register hash _ => [hash]
  | meanwhile call => hashesIn call.records

/-- Goes through events and lists the answers to the registrations. -/
def run (s : Snapshot) (store : Store) : List Event → List Bool × Snapshot × Store
  | [] => ([], s, store)
  | .register hash prev :: rest =>
    let (answer, s) := s.register store hash prev
    let (answers, after) := s.run store rest
    (answer :: answers, after)
  | .meanwhile call :: rest => s.run (store.perform call) rest

end Snapshot

namespace Base

/-- No question to the frozen graph fails in this state of the store. -/
def Readable (store : Store) : Base → Prop
  | .graph _ => True
  | .store picture _ => ∀ hash, (∃ found, store.find picture.cutoff hash = .ok found) ∧
      ∃ found, store.next picture.cutoff hash = .ok found

/-- Whatever else is written, the frozen graph goes on to answer as it does in this state of the
store. -/
def Steady (store : Store) (base : Base) : Prop :=
  ∀ calls : List StoreCall, (∀ call ∈ calls, ∀ record ∈ call.records, record.hash ≠ Hash.null) →
    base.view (store.performAll calls) = base.view store ∧ base.Readable (store.performAll calls)

/-- The frozen graph was taken of records with these links, in this order: it is a graph that took them
in, or a snapshot of a store that committed them. A durable store must not have been given a record
of the null hash. -/
inductive Over : Store → Base → Edges → Prop
  | graph (store : Store) (links : Edges) : Over store (.graph (.ofEdges links)) links
  | store {start opened : Store} {calls : List StoreCall} {picture : StoreSnapshot} {records : List Record}
      (fresh : start = .inMemory ∨ start = .durable ∧
        ∀ call ∈ calls, ∀ record ∈ call.records, record.hash ≠ Hash.null)
      (committed : (start.performAll calls).readAll = .ok records)
      (created : (start.performAll calls).createSnapshot = .ok (picture, opened)) :
      Over opened (.store picture (.ofParts picture.begins picture.ends)) (linksOf records)

variable {base : Base} {store : Store} {links : Edges} {picture : StoreSnapshot} {f : Frontier}
  {commits : Commits}

theorem Steady.perform {call : StoreCall} (steady : base.Steady store)
    (nonNull : ∀ record ∈ call.records, record.hash ≠ Hash.null) :
    base.Steady (store.perform call) ∧ base.view (store.perform call) = base.view store := by
  have single : ∀ other ∈ [call], ∀ record ∈ other.records, record.hash ≠ Hash.null := by
    simpa using nonNull
  have unchanged : base.view (store.perform call) = base.view store := (steady [call] single).1
  refine ⟨?_, unchanged⟩
  intro calls others
  rw [unchanged]
  apply steady (call :: calls)
  intro other member
  rcases List.mem_cons.mp member with rfl | later
  · exact nonNull
  · exact others other later

theorem steady_of_holds (holds : store.Holds commits) (old : picture.cutoff ≤ store.medium.last) :
    (Base.store picture f).Steady store := by
  intro calls nonNull
  obtain ⟨more, later, -⟩ := holds.performAll nonNull
  exact ⟨later.view_eq holds old, fun hash => ⟨⟨_, later.holds.find_eq⟩, _, later.holds.next_eq⟩⟩

theorem steady_of_tracks (tracks : store.Tracks commits) (old : picture.cutoff ≤ store.medium.last) :
    (Base.store picture f).Steady store := by
  intro calls _
  have grows := tracks.performAll calls
  have ⟨more, after, _⟩ := grows
  exact ⟨grows.view_eq tracks old, fun hash => ⟨after.find_ok hash, after.next_ok hash⟩⟩

/-- A snapshot with nothing registered answers as the graph of the records below. -/
theorem Over.start (based : base.Over store links) (cutoff : Nat) :
    base.Steady store ∧ ((Snapshot.ofBase cutoff base).view store).AnswersAs (.ofEdges links) := by
  rw [Snapshot.view_ofBase]
  cases based with
  | graph store links => exact ⟨fun _ _ => ⟨rfl, trivial⟩, .of_graph⟩
  | @store start opened calls picture records fresh committed created =>
    rcases fresh with rfl | ⟨rfl, nonNull⟩
    · obtain ⟨commits, tracks, -⟩ := Store.tracks_inMemory.performAll calls
      rw [List.nil_append] at tracks
      obtain rfl := Except.ok.inj (committed.symm.trans tracks.readAll_eq)
      obtain ⟨still, old, -⟩ := tracks.presents created (.of_tracks tracks)
      obtain ⟨-, -, presents⟩ := tracks.presents created (.of_tracks still)
      exact ⟨steady_of_tracks still old, presents.answers⟩
    · obtain ⟨commits, reached, -⟩ := Store.holds_durable.performAll nonNull
      obtain ⟨_, registry, taken, old, -⟩ := reached.holds.createSnapshot_eq
      obtain ⟨rfl, rfl⟩ := Prod.mk.inj (Except.ok.inj (created.symm.trans taken))
      obtain rfl := Except.ok.inj (committed.symm.trans reached.holds.readAll_eq)
      have opened : (Store.durable.performAll calls).Later commits
          { Store.durable.performAll calls with registry } commits :=
        .of_holds reached.holds rfl (Nat.le_refl _)
      exact ⟨steady_of_holds opened.holds old, (reached.holds.presents created opened).answers⟩

end Base

namespace Snapshot

variable {s : Snapshot} {store : Store} {base : Base} {g : LogGraph} {links : Edges}

theorem run_register {hash prev : Hash} {rest : List Event} : s.run store (.register hash prev :: rest) =
    ((s.register store hash prev).1 :: ((s.register store hash prev).2.run store rest).1,
      ((s.register store hash prev).2.run store rest).2) := rfl

/-- Events, one after the other. -/
theorem run_answersAs {events : List Event} (answers : (s.view store).AnswersAs g) (linked : g.Linked)
    (steady : s.base.Steady store) (nonNull : ∀ event ∈ events, Hash.null ∉ event.hashes) :
    ((s.run store events).2.1.view (s.run store events).2.2).AnswersAs
        (g.ingest (events.flatMap Event.links)).2 ∧
      (s.run store events).2.1.base.Steady (s.run store events).2.2 ∧
      (s.run store events).2.1.registered = s.registered + (s.run store events).1.count true := by
  induction events generalizing s store g with
  | nil => exact ⟨answers, steady, rfl⟩
  | cons event rest ih =>
    have later : ∀ event ∈ rest, Hash.null ∉ event.hashes := fun event member =>
      nonNull event (List.mem_cons_of_mem _ member)
    have named := nonNull event List.mem_cons_self
    rw [List.flatMap_cons, LogGraph.ingest_append]
    cases event with
    | register hash prev =>
      have nonNullHash : hash ≠ Hash.null := fun null => named (by simp [Event.hashes, null])
      obtain ⟨answer, registered, counted⟩ := register_answersAs prev answers linked nonNullHash
      obtain ⟨all, after, total⟩ := ih registered linked.insert (by simpa using steady) later
      rw [run_register]
      refine ⟨all, after, ?_⟩
      rw [total, counted, List.count_cons]
      simp only [beq_true]
      omega
    | meanwhile call =>
      have nonNullCall : ∀ record ∈ call.records, record.hash ≠ Hash.null := fun record member null =>
        named (mem_hashesIn.mpr ⟨record, member, null⟩)
      obtain ⟨still, base⟩ := steady.perform nonNullCall
      have unchanged : s.view (store.perform call) = s.view store := by
        unfold Snapshot.view
        rw [base]
      exact ih (unchanged ▸ answers) linked still later

/-- A snapshot answers as the graph of the records below it and those registered. -/
theorem registered_show_as_in_graph (based : base.Over store links) (cutoff : Nat)
    (events : List Event) (nonNull : ∀ event ∈ events, Hash.null ∉ event.hashes) :
    let after := (ofBase cutoff base).run store events
    let g := LogGraph.ofEdges (links ++ events.flatMap Event.links)
    (after.2.1.view after.2.2).AnswersAs g ∧ after.2.1.base.Readable after.2.2 ∧
      after.2.1.registered = after.1.count true ∧
      ∀ hash prev, hash ≠ Hash.null →
        (after.2.1.register after.2.2 hash prev).1 = !g.contains hash := by
  intro after g
  obtain ⟨steady, answers⟩ := based.start cutoff
  have linked : (LogGraph.ofEdges links).Linked := LogGraph.linked_empty.ingest
  obtain ⟨shown, still, counted⟩ := run_answersAs answers linked steady nonNull
  have whole : ((LogGraph.ofEdges links).ingest (events.flatMap Event.links)).2 = g :=
    LogGraph.ingest_append.symm
  rw [whole] at shown
  refine ⟨shown, (still [] (by simp)).2, ?_, ?_⟩
  · rw [counted]
    exact Nat.zero_add _
  · exact fun hash prev nonNull =>
      (register_answersAs prev shown LogGraph.linked_empty.ingest nonNull).1

/-- Records that name themselves, fill a gap or repeat one below, while the store goes on. -/
theorem registered_show_as_in_graph_of_gap :
    let hash (byte : UInt8) : Hash := ⟨.fill 32 byte⟩
    let record (named prev : UInt8) : Record := ⟨hash named, ⟨hash prev, 1, 0, .zero⟩, [], .unsigned⟩
    let events : List Event := [.register (hash 4) (hash 4), .meanwhile (.write [record 1 0]),
      .register (hash 1) .null, .register (hash 2) (hash 9)]
    let offered := [(hash 2, hash 1), (hash 3, hash 2), (hash 4, hash 4), (hash 1, .null), (hash 2, hash 9)]
    ∃ picture opened,
      (Store.durable.performAll [.write [record 2 1, record 3 2]]).createSnapshot = .ok (picture, opened) ∧
      let base := Base.store picture (.ofParts picture.begins picture.ends)
      let after := (ofBase picture.cutoff base).run opened events
      (after.2.1.view after.2.2).AnswersAs (.ofEdges offered) ∧
        after.2.1.registered = after.1.count true := by
  intro hash record events offered
  have nonNull : ∀ event ∈ events, Hash.null ∉ event.hashes := by
    simp only [events, List.mem_cons, List.not_mem_nil, or_false]
    rintro _ (rfl | rfl | rfl | rfl) <;> decide
  have written : ∀ call ∈ [StoreCall.write [record 2 1, record 3 2]],
      ∀ record ∈ call.records, record.hash ≠ Hash.null := by
    simp only [List.mem_cons, List.not_mem_nil, or_false]
    rintro _ rfl
    decide
  obtain ⟨commits, reached, -⟩ := Store.holds_durable.performAll written
  obtain ⟨picture, registry, created, -⟩ := reached.holds.createSnapshot_cutoff
  have committed : (Store.durable.performAll [.write [record 2 1, record 3 2]]).readAll =
      .ok [record 2 1, record 3 2] := by decide
  have based := Base.Over.store (.inr ⟨rfl, written⟩) committed created
  obtain ⟨answers, -, counted, -⟩ := registered_show_as_in_graph based picture.cutoff events nonNull
  exact ⟨picture, _, created, answers, counted⟩

/-- With a record of the null hash a table and a graph of the same log have different frontiers. In the
graph, first records are begins no more, as if they had been waiting for it; in the table, it is no
end, since they name it. -/
theorem null_hash_tells_store_from_graph :
    let first : Record := ⟨⟨.fill 32 1⟩, ⟨.null, 0, 0, .zero⟩, [], .unsigned⟩
    let null : Record := ⟨.null, ⟨⟨.fill 32 9⟩, 0, 0, .zero⟩, [], .unsigned⟩
    let written := (Store.durable.write [first, null]).2
    let g := LogGraph.ofEdges [(first.hash, first.prev), (null.hash, null.prev)]
    written.readAll = .ok [first, null] ∧
      ∃ picture opened, written.createSnapshot = .ok (picture, opened) ∧
        let base := Base.store picture (.ofParts picture.begins picture.ends)
        let view := (ofBase picture.cutoff base).view opened
        view.frontier.beginList = [null.hash, first.hash] ∧ g.frontier.beginList = [null.hash] ∧
          view.frontier.endList = [first.hash] ∧ g.frontier.endList = [null.hash, first.hash] := by
  intro first null written g
  let table := ((Table.empty.insert first).2.insert null).2
  have begins : table.beginEdges = .ok [(first.hash, .null), (null.hash, null.prev)] := by decide
  have ends : table.ends = .ok [first.hash] := by decide
  let picture : StoreSnapshot := ⟨1, 2, [(first.hash, .null), (null.hash, null.prev)], [first.hash]⟩
  let opened : Store := { written with registry := written.registry.create.2 }
  have created : written.createSnapshot = .ok (picture, opened) := by
    have greatest : table.greatestSeq = 2 := by decide
    change (do return (table.greatestSeq, ← table.beginEdges, ← table.ends) : Except StoreError _).map _ = _
    rw [begins, ends, greatest]
    rfl
  refine ⟨by decide, picture, opened, created, ?_⟩
  decide +kernel

end Snapshot

end HashLog
