import HashLog.Proofs.Exchange.Economy
import HashLog.Proofs.Exchange.Overlays
import HashLog.Proofs.Graph.Rescans
import Mathlib.Order.Interval.Finset.Fin
import Mathlib.Order.Interval.Set.OrdConnected
/-!
Offers on one chain. What a replica holds of a chain falls into runs of consecutive records. Two of
them are joined by a path exactly if the whole interval between them is there
(`IsLine.joined_iff_mem_runAround`), so against the frontier of a peer a snapshot offers what the
peer lacks of the runs in which it holds something, and asks for the frontier hashes that it does not
have.
-/
namespace HashLog

/-! ## Runs of consecutive places -/

section Runs

variable {n : Nat} {places : Finset (Fin n)} {place other : Fin n}

/-- The places that are reached from one without passing over a missing one. -/
def runAround (places : Finset (Fin n)) (place : Fin n) : Finset (Fin n) :=
  places.filter fun other => Finset.uIcc place other ⊆ places

theorem mem_runAround : other ∈ runAround places place ↔ Finset.uIcc place other ⊆ places := by
  rw [runAround, Finset.mem_filter, and_iff_right_of_imp]
  exact fun between => between Finset.right_mem_uIcc

/-- Of the runs of consecutive places that have this one, it is the longest. -/
theorem isGreatest_runAround (member : place ∈ places) :
    IsGreatest {run : Finset (Fin n) | place ∈ run ∧ run ⊆ places ∧ (run : Set (Fin n)).OrdConnected}
      (runAround places place) := by
  refine ⟨⟨?_, Finset.filter_subset _ _, ?_⟩, ?_⟩
  · simpa [mem_runAround] using member
  · refine ⟨fun first firstIn last lastIn other between => ?_⟩
    have firstIn := mem_runAround.mp firstIn
    have lastIn := mem_runAround.mp lastIn
    refine mem_runAround.mpr fun inner within => ?_
    -- what lies between the place and an inner one lies between the place and one of the bounds
    have covered : inner ∈ Finset.uIcc place first ∨ inner ∈ Finset.uIcc place last := by
      simp only [Finset.mem_uIcc, Set.mem_Icc, inf_le_iff, le_sup_iff] at within between ⊢
      omega
    exact covered.elim (@firstIn _) (@lastIn _)
  · rintro run ⟨starts, within, connected⟩ other member
    refine mem_runAround.mpr fun inner between => within ?_
    exact connected.uIcc_subset starts member (by rwa [← Finset.coe_uIcc, Finset.mem_coe])

end Runs

/-! ## Runs and paths -/

variable {chain : List Record} {places theirs : Finset (Fin chain.length)}
  {place other : Fin chain.length} {prev child hash : Hash}

/-- The hashes of the records at these places of a chain. -/
def hashesAt (chain : List Record) (places : Finset (Fin chain.length)) : Finset Hash :=
  places.image fun place => chain[place].hash

theorem mem_hashesAt : hash ∈ hashesAt chain places ↔ ∃ place ∈ places, chain[place].hash = hash :=
  Finset.mem_image

namespace IsLine

variable (line : IsLine chain)
include line

theorem hash_inj : chain[place].hash = chain[other].hash ↔ place = other := by
  rw [Fin.ext_iff]
  exact line.getElem_inj

theorem hash_mem_hashesAt : chain[place].hash ∈ hashesAt chain places ↔ place ∈ places := by
  simp only [mem_hashesAt, line.hash_inj, exists_eq_right]

theorem card_hashesAt : (hashesAt chain places).card = places.card :=
  Finset.card_image_of_injective _ fun _ _ same => line.hash_inj.mp same

theorem parent_iff : Parent {r | r ∈ chain} (hashesAt chain places) prev child ↔
    ∃ place ∈ places, ∃ next ∈ places, next.val = place.val + 1 ∧ chain[place].hash = prev ∧
      chain[next].hash = child := by
  constructor
  · rintro ⟨prevIn, childIn, r, member, rfl, rfl⟩
    obtain ⟨place, placeIn, named⟩ := mem_hashesAt.mp prevIn
    obtain ⟨next, nextIn, same⟩ := mem_hashesAt.mp childIn
    obtain ⟨k, below, rfl, ⟨-, unknown⟩ | ⟨l, before, rfl, names⟩⟩ := line.prev_cases member
    · exact absurd (mem_hashesIn.mpr ⟨_, List.getElem_mem _, named⟩) unknown
    · have atNext : next.val = l + 1 := line.getElem_inj.mp same
      have atPlace : place.val = l := line.getElem_inj.mp (named.trans names)
      exact ⟨place, placeIn, next, nextIn, by omega, named, same⟩
  · rintro ⟨place, placeIn, next, nextIn, follows, rfl, rfl⟩
    refine ⟨line.hash_mem_hashesAt.mpr placeIn, line.hash_mem_hashesAt.mpr nextIn, chain[next],
      List.getElem_mem _, rfl, ?_⟩
    have names := line.prev_getElem (i := place) (by omega)
    simpa [← follows] using names

/-- Along a path the places ascend one by one. -/
private theorem climbs_of_leads (member : place ∈ places)
    (path : Leads {r | r ∈ chain} (hashesAt chain places) chain[place].hash hash) :
    ∃ last, chain[last].hash = hash ∧ place ≤ last ∧ Finset.Icc place last ⊆ places := by
  induction path with
  | refl => exact ⟨place, rfl, le_rfl, by simpa using member⟩
  | tail _ step ih =>
    obtain ⟨last, same, ordered, between⟩ := ih
    obtain ⟨before, -, next, nextIn, follows, named, reached⟩ := line.parent_iff.mp step
    obtain rfl := line.hash_inj.mp (named.trans same.symm)
    refine ⟨next, reached, by omega, fun inner within => ?_⟩
    have ⟨above, below⟩ := Finset.mem_Icc.mp within
    obtain rfl | earlier : inner = next ∨ inner ≤ before := by omega
    · exact nextIn
    · exact between (Finset.mem_Icc.mpr ⟨above, earlier⟩)

private theorem leads_of_climbs (between : Finset.Icc place other ⊆ places) {k : Nat}
    (below : k < chain.length) (above : place.val ≤ k) (bound : k ≤ other.val) :
    Leads {r | r ∈ chain} (hashesAt chain places) chain[place].hash chain[k].hash := by
  have within : ∀ j (inside : j < chain.length), place.val ≤ j → j ≤ other.val →
      ⟨j, inside⟩ ∈ places := fun j inside low high => between (Finset.mem_Icc.mpr ⟨low, high⟩)
  induction k, above using Nat.le_induction with
  | base => exact .refl
  | succ k above ih =>
    refine (ih (by omega) (by omega)).tail (line.parent_iff.mpr ?_)
    exact ⟨⟨k, by omega⟩, within k _ above (by omega), ⟨k + 1, below⟩,
      within (k + 1) below (by omega) bound, rfl, rfl, rfl⟩

theorem leads_iff (member : place ∈ places) :
    Leads {r | r ∈ chain} (hashesAt chain places) chain[place].hash chain[other].hash ↔
      place ≤ other ∧ Finset.Icc place other ⊆ places := by
  constructor
  · intro path
    obtain ⟨last, same, ordered, between⟩ := line.climbs_of_leads member path
    obtain rfl := line.hash_inj.mp same
    exact ⟨ordered, between⟩
  · rintro ⟨ordered, between⟩
    exact line.leads_of_climbs between other.isLt ordered le_rfl

theorem joined_iff_mem_runAround (member : place ∈ places) (held : other ∈ places) :
    Joined {r | r ∈ chain} (hashesAt chain places) chain[place].hash chain[other].hash ↔
      other ∈ runAround places place := by
  wlog ordered : place ≤ other generalizing place other
  · rw [mem_runAround, Finset.uIcc_comm, ← mem_runAround, ← this held member (le_of_not_ge ordered)]
    exact ⟨Joined.symm, Joined.symm⟩
  rw [mem_runAround, Finset.uIcc_of_le ordered, Joined, line.leads_iff member, line.leads_iff held,
    and_iff_right ordered]
  refine or_iff_left_of_imp ?_
  rintro ⟨back, between⟩
  obtain rfl := le_antisymm ordered back
  exact between

end IsLine

/-! ## Snapshots of some records of a chain

What a view answers about the null hash is left open where it is compared with a graph. No record of a
chain has that hash, so none of the snapshots here shows one.
-/

namespace GraphView

/-- The view has no record of this hash. -/
def Lacks (view : GraphView) (hash : Hash) : Prop :=
  view.contains hash = false ∧ view.prevHash hash = none

variable {view : GraphView} {g : LogGraph} {links : Edges} {f : Frontier}

theorem Shows.lacks (shows : view.Shows links) (unknown : hash ∉ links.known) : view.Lacks hash := by
  refine ⟨?_, (shows.prevHash hash).trans (Edges.prevOf_eq_none.mpr unknown)⟩
  rw [Bool.eq_false_iff, ne_eq, shows.contains]
  exact unknown

theorem lacks_view (unknown : hash ∉ links.known) : (links.view f).Lacks hash := by
  have unnamed : links.prevOf hash = none := Edges.prevOf_eq_none.mpr unknown
  exact ⟨by simp [Edges.view, unnamed], unnamed⟩

/-- A view that answers as a graph shows its links, if there is no record of the null hash. -/
theorem AnswersAs.shows (answers : view.AnswersAs g) (holds : g.Holds links)
    (lacks : view.Lacks Hash.null) : view.Shows links where
  contains hash := by
    by_cases null : hash = Hash.null
    · simp [null, lacks.1, holds.no_null]
    · rw [answers.contains hash null, holds.contains_iff]
  prevHash hash := by
    by_cases null : hash = Hash.null
    · rw [null, lacks.2, Edges.prevOf_eq_none.mpr holds.no_null]
    · rw [answers.prevHash hash null, LogGraph.prevOf, holds.preds]
  nextHashes hash nonNull := by rw [answers.nextHashes hash nonNull, holds.nextOf_eq nonNull]
  frontier := ⟨fun hash prev => answers.frontier.begins hash ▸ holds.frontier.begins hash prev,
    fun hash => (answers.frontier.ends hash).trans (holds.frontier.ends hash)⟩

end GraphView

variable {base : Base} {store : Store} {links : Edges} {s : Snapshot}

theorem Base.Over.lacks_null (based : base.Over store links) (noNull : Hash.null ∉ links.known) :
    (base.view store).Lacks Hash.null := by
  cases based with
  | graph store links =>
    have holds : (LogGraph.ofEdges links).Holds (Edges.addAll [] links) :=
      LogGraph.holds_empty.ingest fun link member null => noNull (null ▸ Edges.known_of_mem member)
    exact holds.shows.lacks holds.no_null
  | @store start opened calls picture records fresh committed created =>
    obtain ⟨commits, views, rfl⟩ : ∃ commits : Commits, (∀ cutoff f,
        (start.performAll calls).view cutoff f = (linksOf (commits.upTo cutoff)).view f) ∧
        commits.records = records := by
      rcases fresh with rfl | ⟨rfl, nonNull⟩
      · obtain ⟨commits, tracks, -⟩ := Store.tracks_inMemory.performAll calls
        rw [List.nil_append] at tracks
        exact ⟨commits, fun _ _ => tracks.view_eq,
          Except.ok.inj (tracks.readAll_eq.symm.trans committed)⟩
      · obtain ⟨commits, reached, -⟩ := Store.holds_durable.performAll nonNull
        exact ⟨commits, fun _ _ => reached.holds.view_eq,
          Except.ok.inj (reached.holds.readAll_eq.symm.trans committed)⟩
    -- opening the snapshot changes nothing but the registry
    obtain ⟨_, -, ⟨⟩⟩ := map_eq_ok.mp created
    change ((start.performAll calls).view _ _).Lacks Hash.null
    rw [views]
    exact GraphView.lacks_view fun member => noNull (Commits.known_upTo_sublist.subset member)

/-! ### Links of some records of a chain -/

/-- The links are those of the records at these places of a chain, in any order and with any repetition. -/
def Edges.OfPlaces (links : Edges) (chain : List Record) (places : Finset (Fin chain.length)) : Prop :=
  ∀ link, link ∈ links ↔ ∃ place ∈ places, LogGraph.edgeOf chain[place] = link

theorem Edges.ofPlaces_linksOf {batch : List Record}
    (held : ∀ r, r ∈ batch ↔ ∃ place ∈ places, chain[place] = r) : (linksOf batch).OfPlaces chain places := by
  intro link
  rw [linksOf, List.mem_map]
  simp only [held]
  constructor
  · rintro ⟨_, ⟨place, member, rfl⟩, rfl⟩
    exact ⟨place, member, rfl⟩
  · rintro ⟨place, member, rfl⟩
    exact ⟨_, ⟨place, member, rfl⟩, rfl⟩

namespace Edges.OfPlaces

variable (placed : links.OfPlaces chain places)
include placed

theorem exists_batch : ∃ batch, linksOf batch = links ∧ (∀ r ∈ batch, r ∈ chain) ∧
    (hashesIn batch).toFinset = hashesAt chain places := by
  obtain ⟨picked, picks⟩ : links ∈ Set.range (List.map (LogGraph.edgeOf ∘ chain.get)) := by
    rw [Set.range_list_map]
    exact fun link member => ((placed link).mp member).imp fun _ found => found.2
  have linked : linksOf (picked.map chain.get) = links := by rw [linksOf, List.map_map, picks]
  refine ⟨picked.map chain.get, linked, ?_, ?_⟩
  · simp
  · ext hash
    rw [List.mem_toFinset, ← known_linksOf, linked, Edges.mem_known, mem_hashesAt]
    constructor
    · rintro ⟨prev, member⟩
      obtain ⟨place, held, same⟩ := (placed _).mp member
      exact ⟨place, held, congrArg Prod.fst same⟩
    · rintro ⟨place, held, rfl⟩
      exact ⟨_, (placed _).mpr ⟨place, held, rfl⟩⟩

variable (line : IsLine chain)
include line

theorem functional : links.Functional := by
  intro a aIn b bIn same
  obtain ⟨place, -, rfl⟩ := (placed a).mp aIn
  obtain ⟨other, -, rfl⟩ := (placed b).mp bIn
  rw [line.hash_inj.mp same]

theorem ne_null : ∀ link ∈ links, link.1 ≠ Hash.null := by
  intro link member null
  obtain ⟨place, -, rfl⟩ := (placed link).mp member
  exact line.no_null (mem_hashesIn.mpr ⟨_, List.getElem_mem _, null⟩)

/-- A view that answers as the graph of such links pictures the records at the places. -/
theorem pictures {view : GraphView} (answers : view.AnswersAs (.ofEdges links))
    (lacks : view.Lacks Hash.null) : view.Pictures {r | r ∈ chain} (hashesAt chain places) := by
  have holds : (LogGraph.ofEdges links).Holds (Edges.addAll [] links) :=
    LogGraph.holds_empty.ingest (placed.ne_null line)
  have recorded : (Edges.addAll [] links).OfPlaces chain places := fun link =>
    ((placed.functional line).mem_addAll holds.proper).trans (placed link)
  obtain ⟨batch, linked, drawn, hashes⟩ := recorded.exists_batch
  have shows := answers.shows holds lacks
  rw [← linked] at shows
  exact hashes ▸ shows.pictures (linked ▸ holds.proper) line.consistent drawn

end Edges.OfPlaces

namespace Snapshot

theorem lacks_null_register (prev : Hash) (lacks : (s.view store).Lacks Hash.null)
    (nonNull : hash ≠ Hash.null) : ((s.register store hash prev).2.view store).Lacks Hash.null := by
  by_cases known : (s.view store).contains hash = true
  · rwa [Snapshot.register, if_pos known]
  · rw [register_of_missing (Bool.eq_false_iff.mpr known)]
    have contains : (s.overlay.add hash prev).contains Hash.null = s.overlay.contains Hash.null := by
      rw [Bool.eq_iff_iff, LogGraph.contains_add, or_iff_right nonNull]
    have prevOf : (s.overlay.add hash prev).prevOf Hash.null = s.overlay.prevOf Hash.null := by
      rw [LogGraph.prevOf_add, if_neg nonNull]
    simpa only [GraphView.Lacks, Snapshot.view, contains, prevOf] using lacks

theorem lacks_null_run {events : List Event} (lacks : (s.view store).Lacks Hash.null)
    (steady : s.base.Steady store) (nonNull : ∀ event ∈ events, Hash.null ∉ event.hashes) :
    ((s.run store events).2.1.view (s.run store events).2.2).Lacks Hash.null := by
  induction events generalizing s store with
  | nil => exact lacks
  | cons event rest ih =>
    obtain ⟨named, later⟩ := List.forall_mem_cons.mp nonNull
    cases event with
    | register hash prev =>
      have nonNullHash : hash ≠ Hash.null := fun null => named (by simp [Event.hashes, null])
      have still : (s.register store hash prev).2.base.Steady store := by rwa [base_register]
      exact ih (lacks_null_register prev lacks nonNullHash) still later
    | meanwhile call =>
      have nonNullCall : ∀ record ∈ call.records, record.hash ≠ Hash.null := fun record member null =>
        named (mem_hashesIn.mpr ⟨record, member, null⟩)
      obtain ⟨still, unchanged⟩ := steady.perform nonNullCall
      refine ih ?_ still later
      rwa [Snapshot.view, unchanged]

/-- The snapshot has the records at these places of a chain: some were in the graph below it and the
others were registered on it, in any order and any number of times, while the store went on. -/
def OfPlaces (s : Snapshot) (store : Store) (chain : List Record) (places : Finset (Fin chain.length)) :
    Prop :=
  ∃ opened base links cutoff events, Base.Over opened base links ∧
    (∀ event ∈ events, Hash.null ∉ Event.hashes event) ∧
    (links ++ events.flatMap Event.links).OfPlaces chain places ∧
    ((ofBase cutoff base).run opened events).2 = (s, store)

namespace OfPlaces

/-- Such a snapshot shows the records at the places, linked as in the chain. -/
theorem pictures (line : IsLine chain) (ours : s.OfPlaces store chain places) :
    (s.view store).Pictures {r | r ∈ chain} (hashesAt chain places) := by
  obtain ⟨opened, base, links, cutoff, events, based, nonNull, placed, ran⟩ := ours
  obtain rfl : _ = s := congrArg Prod.fst ran
  obtain rfl : _ = store := congrArg Prod.snd ran
  have unlisted : Hash.null ∉ links.known := fun member => by
    obtain ⟨prev, link⟩ := Edges.mem_known.mp member
    exact placed.ne_null line _ (List.mem_append_left _ link) rfl
  have lacks : ((ofBase cutoff base).view opened).Lacks Hash.null := by
    rw [view_ofBase]
    exact based.lacks_null unlisted
  obtain ⟨steady, answers⟩ := based.start cutoff
  obtain ⟨shown, -, -⟩ := run_answersAs answers LogGraph.linked_empty.ingest steady nonNull
  rw [LogGraph.ofEdges, ← LogGraph.ingest_append] at shown
  exact placed.pictures line shown (lacks_null_run lacks steady nonNull)

/-- A new snapshot of a graph that took in the records at the places. -/
theorem of_graph {batch : List Record} (cutoff : Nat) (store : Store)
    (held : ∀ r, r ∈ batch ↔ ∃ place ∈ places, chain[place] = r) :
    (ofBase cutoff (.graph (.ofEdges (linksOf batch)))).OfPlaces store chain places :=
  ⟨store, _, linksOf batch, cutoff, [], .graph store _, by simp, by simpa using Edges.ofPlaces_linksOf held,
    rfl⟩

end OfPlaces

end Snapshot

/-! ## Offers -/

namespace Sample

def bud : Record := plain 4 3 .zero

def leaf : Record := plain 5 4 .zero

/-- A chain of five records. -/
abbrev limb : List Record := [trunk, twig, tip, bud, leaf]

theorem isLine_limb : IsLine limb := ⟨by decide, by simp [limb]; decide, by decide, by decide⟩

end Sample

namespace Snapshot

open Sample

variable {t : Snapshot} {far : Store} {limit : Nat}

/-- Against the frontier of a peer that has some records of a chain, a snapshot of others sends exactly
what the peer lacks of the runs here in which it has something, and misses exactly the begins and the
ends of the peer that are not here. -/
theorem offer_fills_shared_runs (line : IsLine chain) (ours : s.OfPlaces store chain places)
    (peers : t.OfPlaces far chain theirs) (room : places.card ≤ limit) :
    ∃ offer, (s.view store).offer t.frontier.beginList t.frontier.endList limit = .ok offer ∧
      offer.send.Nodup ∧
      (∀ hash, hash ∈ offer.send ↔ ∃ place ∈ places, place ∉ theirs ∧
        (∃ held ∈ theirs, held ∈ runAround places place) ∧ chain[place].hash = hash) ∧
      offer.missing.Nodup ∧
      ∀ hash, hash ∈ offer.missing ↔
        (hash ∈ t.frontier.beginList ∨ hash ∈ t.frontier.endList) ∧
          ∀ place ∈ places, chain[place].hash ≠ hash := by
  have pictures := ours.pictures line
  have listed := peers.pictures line
  have frontier : FrontierOf {r | r ∈ chain} (hashesAt chain theirs) t.frontier.beginList
      t.frontier.endList := ⟨listed.begins, listed.ends⟩
  obtain ⟨offer, ran, against⟩ := GraphView.offer_against pictures limit line.consistent frontier
  have whole : (hashesAt chain places).card ≤ limit := line.card_hashesAt.trans_le room
  refine ⟨offer, ran, against.distinct_send, fun hash => ?_, against.distinct_missing, fun hash => ?_⟩
  · rw [GraphView.mem_offer_send pictures whole line.linear frontier ran]
    constructor
    · rintro ⟨shown, lacking, other, otherIn, joined⟩
      obtain ⟨place, member, rfl⟩ := mem_hashesAt.mp shown
      obtain ⟨held, heldIn, rfl⟩ := mem_hashesAt.mp otherIn
      have here : held ∈ places := line.hash_mem_hashesAt.mp (joined.symm.mem shown)
      exact ⟨place, member, fun found => lacking (line.hash_mem_hashesAt.mpr found),
        ⟨held, heldIn, (line.joined_iff_mem_runAround member here).mp joined⟩, rfl⟩
    · rintro ⟨place, member, lacking, ⟨held, heldIn, run⟩, rfl⟩
      have here : held ∈ places := Finset.mem_of_mem_filter held run
      exact ⟨line.hash_mem_hashesAt.mpr member, line.hash_mem_hashesAt.not.mpr lacking, _,
        line.hash_mem_hashesAt.mpr heldIn, (line.joined_iff_mem_runAround member here).mpr run⟩
  · rw [against.missing, frontier.begins, frontier.ends, mem_hashesAt]
    simp only [not_exists, not_and, ne_eq]

/-- Two records of a chain of five at the peer, each a begin and an end at once. One lies in a run here
and the other in a gap; a third run here has none of the peer's. -/
theorem offer_fills_shared_runs_of_islands :
    let events : List Event :=
      [.register tip.hash tip.prev, .meanwhile (.write [bud]), .register leaf.hash leaf.prev]
    let peer := ofBase 0 (.graph (.ofEdges (linksOf [bud, twig])))
    ∃ picture opened,
      (Store.durable.performAll [.write [twig, trunk]]).createSnapshot = .ok (picture, opened) ∧
      let base := Base.store picture (.ofParts picture.begins picture.ends)
      let after := (ofBase picture.cutoff base).run opened events
      ∃ offer, (after.2.1.view after.2.2).offer peer.frontier.beginList peer.frontier.endList 4 = .ok offer ∧
        trunk.hash ∈ offer.send ∧ tip.hash ∈ offer.send ∧ leaf.hash ∉ offer.send ∧
          bud.hash ∈ offer.missing := by
  intro events peer
  have written : ∀ call ∈ [StoreCall.write [twig, trunk]],
      ∀ record ∈ call.records, record.hash ≠ Hash.null := by
    simp only [List.mem_cons, List.not_mem_nil, or_false]
    rintro _ rfl
    decide
  have nonNull : ∀ event ∈ events, Hash.null ∉ event.hashes := by
    simp only [events, List.mem_cons, List.not_mem_nil, or_false]
    rintro _ (rfl | rfl | rfl) <;> decide
  obtain ⟨commits, reached, -⟩ := Store.holds_durable.performAll written
  obtain ⟨picture, registry, created, -⟩ := reached.holds.createSnapshot_cutoff
  have committed : (Store.durable.performAll [.write [twig, trunk]]).readAll = .ok [twig, trunk] := by
    decide
  refine ⟨picture, _, created, ?_⟩
  intro base after
  have ours : after.2.1.OfPlaces after.2.2 limb {0, 1, 2, 4} := by
    have held : ∀ r, r ∈ [twig, trunk, tip, leaf] ↔
        ∃ place ∈ ({0, 1, 2, 4} : Finset (Fin limb.length)), limb[place] = r := by
      simp [limb, eq_comm, or_left_comm]
    exact ⟨_, base, _, picture.cutoff, events, .store (.inr ⟨rfl, written⟩) committed created, nonNull,
      Edges.ofPlaces_linksOf held, rfl⟩
  have peers : peer.OfPlaces .inMemory limb {1, 3} :=
    .of_graph 0 _ (by simp [limb, eq_comm, or_comm])
  obtain ⟨offer, ran, -, sends, -, misses⟩ :=
    offer_fills_shared_runs isLine_limb ours peers (show _ ≤ 4 by decide)
  exact ⟨offer, ran, (sends _).mpr (by decide), (sends _).mpr (by decide), (sends _).not.mpr (by decide),
    (misses _).mpr (by decide +kernel)⟩

end Snapshot

end HashLog
