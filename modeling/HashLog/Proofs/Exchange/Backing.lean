import HashLog.Proofs.Exchange.Holdings
import HashLog.Proofs.Exchange.Overlays
/-!
What the snapshots of an engine in memory show is stored. A hash gets into a snapshot from a graph of
stored records or with a record that is written in the same step, and no record is ever lost, so the
records that a plan names are all found when they are read (`sustained_backed`, `ShowsOnly.planSecond`),
whatever their hashes are and whatever else was written in the meantime.
-/
namespace HashLog

/-! ## Views of known hashes -/

/-- All records that the view has, and all that it names as successors, are of these hashes. -/
structure GraphView.ShowsOnly (view : GraphView) (known : Set Hash) : Prop where
  contains : ∀ hash, view.contains hash = true → hash ∈ known
  next : ∀ hash, ∀ child ∈ view.nextHashes hash, child ∈ known

namespace GraphView.ShowsOnly

variable {view : GraphView} {known more : Set Hash} {start hash : Hash} {limit : Nat} {walk : Walk}
  {terminals received : HashSet} {begins ends addrs items : List Hash} {made : Offer} {m : Message}
  {plan : Plan}

theorem mono (shows : view.ShowsOnly known) (subset : known ⊆ more) : view.ShowsOnly more :=
  ⟨fun hash present => subset (shows.contains hash present),
    fun hash child listed => subset (shows.next hash child listed)⟩

theorem precedes (shows : view.ShowsOnly known) {prev : Hash} (precedes : view.Precedes hash prev) :
    prev ∈ known := by
  unfold Precedes knownPrev at precedes
  split at precedes
  · split at precedes
    · cases precedes
    · rename_i visible
      obtain rfl := Option.some.inj precedes
      simp only [Bool.or_eq_true, Bool.not_eq_true', not_or, Bool.not_eq_false] at visible
      exact shows.contains _ visible.2
  · cases precedes

/-- A walk toward older records finds known ones only. -/
theorem searchAhead (shows : view.ShowsOnly known) (visible : view.contains start = true)
    (ran : view.searchAhead start terminals limit = .ok walk) :
    ∀ hash, hash ∈ walk.visited ∨ hash ∈ walk.localEnds → hash ∈ known := by
  by_cases terminal : start ∈ terminals
  · unfold GraphView.searchAhead at ran
    rw [if_pos (Std.TreeSet.contains_iff_mem.mpr terminal)] at ran
    obtain rfl := Except.ok.inj ran
    simp [Walk.empty]
  · intro hash found
    cases ((searchAhead_ahead terminal ran).reached hash found).cases_tail with
    | inl same => exact same ▸ shows.contains start visible
    | inr last =>
      obtain ⟨before, -, precedes⟩ := last
      exact shows.precedes precedes

theorem searchAfter (shows : view.ShowsOnly known) :
    ∀ hash ∈ (view.searchAfter start terminals limit).visited, hash ∈ known := by
  intro hash passed
  by_cases terminal : start ∈ terminals
  · rw [GraphView.searchAfter, if_pos (by simpa using terminal)] at passed
    cases passed
  · obtain ⟨prev, -, follows⟩ := (searchAfter_sweeps terminal).exists_follows passed
    exact shows.next prev hash follows

theorem component (shows : view.ShowsOnly known) (found : view.component addrs limit = .ok items) :
    ∀ hash ∈ items, hash ∈ known := by
  intro hash item
  obtain ⟨addr, -, visible, around, ran, member⟩ := ((component_collects found).fresh hash item).2
  obtain ⟨walk, ahead, rfl⟩ := map_eq_ok.mp ran
  simp only [List.append_assoc, List.mem_cons, List.mem_append, List.cons_append] at member
  rcases member with rfl | passed | ended | follows
  · exact shows.contains _ visible
  · exact shows.searchAhead visible ahead hash (Or.inl passed)
  · exact shows.searchAhead visible ahead hash (Or.inr ended)
  · exact shows.searchAfter hash follows

/-- An offer is made of known hashes. -/
theorem offer (shows : view.ShowsOnly known) (offered : view.offer begins ends limit = .ok made) :
    ∀ hash ∈ made.send, hash ∈ known := by
  obtain ⟨parts, rfl, each⟩ := parts_of_offer offered
  intro hash sent
  obtain ⟨part, listed, member⟩ := List.mem_flatMap.mp (mem_distinct.mp sent)
  rcases (each part).mp listed with ⟨start, -, -, walked⟩ | ⟨start, -, -, rfl⟩
  · unfold offerAhead at walked
    split at walked
    · rename_i visible
      obtain ⟨walk, ran, rfl⟩ := map_eq_ok.mp walked
      rcases List.mem_append.mp member with passed | reached
      · exact shows.searchAhead visible ran hash (Or.inl passed)
      · exact shows.searchAhead visible ran hash (Or.inr (List.mem_of_mem_filter reached))
    · obtain rfl := Except.ok.inj walked
      cases member
  · unfold offerAfter at member
    split at member
    · exact shows.searchAfter hash member
    · cases member

theorem planSecond (shows : view.ShowsOnly known) (planned : view.planSecond received m limit = .ok plan) :
    ∀ hash ∈ plan.send, hash ∈ known := by
  unfold GraphView.planSecond at planned
  split at planned
  · cases planned
  · rename_i offer offered
    obtain ⟨items, found, rfl⟩ := map_eq_ok.mp planned
    intro hash sent
    rcases List.mem_append.mp (mem_distinct.mp (mem_unreceived.mp sent).1) with own | other
    · exact shows.offer offered hash own
    · exact shows.component found hash other

theorem planThird (shows : view.ShowsOnly known) (planned : view.planThird received m limit = .ok plan) :
    ∀ hash ∈ plan.send, hash ∈ known := by
  obtain ⟨items, found, rfl⟩ := map_eq_ok.mp planned
  exact fun hash sent => shows.component found hash (mem_unreceived.mp sent).1

end GraphView.ShowsOnly

/-! ## Graphs and snapshots that grow -/

namespace LogGraph

variable {g : LogGraph} {known : Set Hash} {hash prev : Hash}

theorem showsOnly_empty : empty.view.ShowsOnly known :=
  ⟨by simp [view, empty, contains], by simp [view, empty, nextOf]⟩

theorem ShowsOnly.insert (shows : g.view.ShowsOnly known) (member : hash ∈ known) :
    (g.insert hash prev).2.view.ShowsOnly known := by
  unfold LogGraph.insert
  split
  · exact shows
  · refine ⟨fun other present => ?_, fun other child listed => ?_⟩
    · rcases contains_add.mp present with rfl | old
      · exact member
      · exact shows.contains other old
    · change child ∈ (g.add hash prev).nextOf other at listed
      rw [nextOf_add, List.mem_append] at listed
      rcases listed with old | new
      · exact shows.next other child old
      · split at new
        · exact List.mem_singleton.mp new ▸ member
        · cases new

theorem ShowsOnly.ingest {links : Edges} (shows : g.view.ShowsOnly known)
    (member : ∀ link ∈ links, link.1 ∈ known) : (g.ingest links).2.view.ShowsOnly known := by
  rw [ingest_snd]
  induction links generalizing g with
  | nil => exact shows
  | cons link rest ih =>
    exact ih (ShowsOnly.insert shows (member link List.mem_cons_self))
      fun other listed => member other (List.mem_cons_of_mem _ listed)

end LogGraph

namespace Snapshot

variable {s : Snapshot} {store : Store} {known : Set Hash} {hash prev : Hash}

theorem ShowsOnly.register (shows : (s.view store).ShowsOnly known) (member : hash ∈ known) :
    ((s.register store hash prev).2.view store).ShowsOnly known := by
  unfold Snapshot.register
  dsimp only
  split
  · exact shows
  · rename_i missing
    have own : s.overlay.view.ShowsOnly known := by
      refine ⟨fun other present => shows.contains other ?_, fun other child listed => ?_⟩
      · exact Bool.or_eq_true_iff.mpr (Or.inl present)
      · by_cases below : ((s.base.view store).nextHashes other).contains child = true
        · exact shows.next other child (List.mem_append_left _ (by simpa using below))
        · exact shows.next other child (List.mem_append_right _
            (List.mem_filter.mpr ⟨listed, by simpa using below⟩))
    have grown : (s.overlay.insert hash prev).2.view.ShowsOnly known :=
      LogGraph.ShowsOnly.insert own member
    refine ⟨fun other present => ?_, fun other child listed => ?_⟩
    · rcases Bool.or_eq_true_iff.mp present with above | below
      · exact grown.contains other above
      · exact shows.contains other (Bool.or_eq_true_iff.mpr (Or.inr below))
    · rcases List.mem_append.mp listed with below | above
      · exact shows.next other child (List.mem_append_left _ below)
      · exact grown.next other child (List.mem_of_mem_filter above)

theorem ShowsOnly.registerAll {batch : List Record} (shows : (s.view store).ShowsOnly known)
    (member : ∀ hash ∈ hashesIn batch, hash ∈ known) :
    ((s.registerAll store batch).view store).ShowsOnly known := by
  unfold Snapshot.registerAll
  induction batch generalizing s with
  | nil => exact shows
  | cons record rest ih =>
    exact ih (ShowsOnly.register shows (member record.hash List.mem_cons_self))
      fun hash listed => member hash (List.mem_cons_of_mem _ listed)

end Snapshot

/-! ## Stores in memory -/

namespace Store

/-- The hashes of the stored records. -/
def storedHashes (s : Store) : Set Hash := {hash | hash ∈ hashesIn s.log}

variable {s s' : Store} {batch : List Record} {cutoff : Nat} {f : Frontier}

theorem storedHashes_congr (same : s'.medium = s.medium) : s'.storedHashes = s.storedHashes := by
  rw [storedHashes, storedHashes, log_congr same]

/-- A store in memory takes every record. -/
theorem Filed.log_write (filed : s.Filed) (memory : s.medium.durable = false) (batch : List Record) :
    (s.write batch).2.log = addRecords s.log batch := by
  have whole : Record.keptOf false batch = batch := by
    have taken : batch.filter (fun record => !record.refusedBy false) = batch :=
      List.filter_eq_self.mpr fun record _ => rfl
    rw [Record.keptOf, taken]
    exact List.map_id batch
  rw [(filed.lists.write batch).log_eq, memory, whole]

theorem Filed.mem_storedHashes_write (filed : s.Filed) (memory : s.medium.durable = false) {hash : Hash} :
    hash ∈ (s.write batch).2.storedHashes ↔ hash ∈ s.storedHashes ∨ hash ∈ hashesIn batch := by
  change hash ∈ hashesIn (s.write batch).2.log ↔ _
  rw [filed.log_write memory, hashesIn_addRecords]
  rfl

theorem mem_storedHashes_of_readAllMetadata (memory : s.medium.durable = false) {stored : List Metadata}
    (listed : s.readAllMetadata = .ok stored) {metadata : Metadata} (found : metadata ∈ stored) :
    metadata.hash ∈ s.storedHashes := by
  rcases s with ⟨m | t, registry⟩
  · obtain rfl := Except.ok.inj listed
    obtain ⟨record, kept, rfl⟩ := List.mem_map.mp found
    have named : record.hash ∈ hashesIn m.records.toList := List.mem_map_of_mem kept
    exact named
  · cases memory

/-- What shows under a cutoff is stored. -/
theorem Filed.view_showsOnly (filed : s.Filed) (memory : s.medium.durable = false) :
    (s.view cutoff f).ShowsOnly s.storedHashes := by
  rcases s with ⟨m | t, registry⟩
  · obtain ⟨commits, tracks⟩ := filed
    have tracked : Store.Tracks ⟨.memory m, registry⟩ commits := ⟨m, rfl, tracks⟩
    have stored : ∀ hash ∈ (linksOf (commits.upTo cutoff)).known,
        hash ∈ Store.storedHashes ⟨.memory m, registry⟩ := by
      intro hash shown
      have kept := Commits.known_upTo_sublist.subset shown
      rw [Commits.links, known_linksOf, tracks.records_eq] at kept
      exact kept
    rw [tracked.view_eq]
    refine ⟨fun hash present => stored hash (Edges.prevOf_isSome.mp present), fun hash child listed => ?_⟩
    exact stored child (Edges.known_of_mem (Edges.mem_nextOf.mp listed))
  · cases memory

end Store

/-! ## Engines in memory -/

namespace Engine

/-- The store is in memory, and a graph of the log is one of stored records. -/
structure Housed (e : Engine) : Prop where
  filed : e.store.Filed
  memory : e.store.medium.durable = false
  mirror : ∀ graph version, e.backend = .mirror graph version → graph.view.ShowsOnly e.store.storedHashes

/-- What the snapshot shows is stored, and nothing that is committed from now on shows below it. -/
structure Backs (e : Engine) (s : Snapshot) : Prop where
  within : s.base.Within e.store
  shows : (s.view e.store).ShowsOnly e.store.storedHashes

/-- An engine in memory whose snapshots show stored records. -/
abbrev Backed (e : Engine) : Prop := e.Upholds Housed Backs

variable {e e' : Engine} {s : Snapshot} {peer : NodeId} {batch : List Record}

theorem Upholds.kept (backed : e.Backed) : e.Kept :=
  ⟨backed.engine.filed, fun peer s held => (backed.held peer s held).within⟩

theorem Housed.hashes_subset (housed : e.Housed) (batch : List Record) :
    e.store.storedHashes ⊆ (e.write batch).2.store.storedHashes := by
  rw [write_store]
  exact fun hash old => (housed.filed.mem_storedHashes_write housed.memory).mpr (Or.inl old)

theorem Housed.batch_subset (housed : e.Housed) (batch : List Record) :
    ∀ hash ∈ hashesIn batch, hash ∈ (e.write batch).2.store.storedHashes := by
  rw [write_store]
  exact fun hash new => (housed.filed.mem_storedHashes_write housed.memory).mpr (Or.inr new)

theorem Housed.write (housed : e.Housed) (batch : List Record) : (e.write batch).2.Housed := by
  refine ⟨?_, ?_, fun graph version mirror => ?_⟩
  · rw [write_store]
    exact housed.filed.write batch
  · rw [write_store, Store.durable_write, housed.memory]
  · cases backend : e.backend with
    | mirror old before =>
      rw [write_mirror backend, Backend.mirror.injEq] at mirror
      rw [← mirror.1]
      apply LogGraph.ShowsOnly.ingest ((housed.mirror old before backend).mono (housed.hashes_subset batch))
      intro link member
      obtain ⟨record, listed, rfl⟩ := List.mem_map.mp member
      exact housed.batch_subset batch _ (List.mem_map_of_mem listed)
    | store => simp [Engine.write, backend] at mirror

theorem Backs.view_write (backs : e.Backs s) (housed : e.Housed) (batch : List Record) :
    s.view (e.write batch).2.store = s.view e.store := by
  rw [write_store]
  exact Snapshot.view_of_base (backs.within.view_write housed.filed batch)

theorem sustained_backed : Sustained Housed Backs where
  same := by
    intro e e' same housed
    refine ⟨housed.filed.congr same.medium, by rw [same.medium, housed.memory], ?_⟩
    rw [same.backend, Store.storedHashes_congr same.medium]
    exact housed.mirror
  carried := by
    intro e e' s same backs
    refine ⟨sustained_kept.carried same backs.within, ?_⟩
    rw [Store.storedHashes_congr same.medium, Snapshot.view_of_base (Base.view_congr same.medium _)]
    exact backs.shows
  opened := by
    intro e e' s housed taken
    refine ⟨sustained_kept.opened housed.filed taken, ?_⟩
    unfold Engine.snapshot at taken
    split at taken
    · rename_i graph version mirror
      obtain ⟨rfl, -⟩ := Prod.mk.inj (Except.ok.inj taken)
      rw [Snapshot.view_ofBase]
      exact housed.mirror graph version mirror
    · obtain ⟨⟨picture, store⟩, -, same⟩ := map_eq_ok.mp taken
      obtain ⟨rfl, -⟩ := Prod.mk.inj same
      rw [Snapshot.view_ofBase]
      exact housed.filed.view_showsOnly housed.memory
  write batch housed := housed.write batch
  kept := by
    intro e s batch housed backs
    refine ⟨sustained_kept.kept batch housed.filed backs.within, ?_⟩
    rw [backs.view_write housed]
    exact backs.shows.mono (housed.hashes_subset batch)
  registered := by
    intro e s batch housed backs
    refine ⟨sustained_kept.registered batch housed.filed backs.within, ?_⟩
    have same : (s.registerAll e.store batch).view (e.write batch).2.store =
        (s.registerAll e.store batch).view e.store := by
      rw [write_store]
      apply Snapshot.view_of_base
      rw [Snapshot.base_registerAll]
      exact backs.within.view_write housed.filed batch
    rw [same]
    exact Snapshot.ShowsOnly.registerAll (backs.shows.mono (housed.hashes_subset batch))
      (housed.batch_subset batch)

theorem Backed.start {kind : BackendKind} {store : Store} {settings : Settings} (filed : store.Filed)
    (memory : store.medium.durable = false)
    (started : Engine.start kind store settings = .ok e) : e.Backed := by
  obtain ⟨rfl, -, idle⟩ := start_fields started
  refine ⟨⟨filed, memory, fun graph version mirror => ?_⟩, fun peer s held => ?_⟩
  · cases kind with
    | mirror =>
      obtain ⟨stored, listed, same⟩ := map_eq_ok.mp started
      rw [← same, Backend.mirror.injEq] at mirror
      rw [← mirror.1]
      apply LogGraph.ShowsOnly.ingest LogGraph.showsOnly_empty
      intro link member
      obtain ⟨metadata, found, rfl⟩ := List.mem_map.mp member
      exact Store.mem_storedHashes_of_readAllMetadata memory listed found
    | store =>
      rw [← Except.ok.inj started] at mirror
      cases mirror
  · rw [conversation, idle, Std.TreeMap.getD_emptyc] at held
    cases held

end Engine

end HashLog
