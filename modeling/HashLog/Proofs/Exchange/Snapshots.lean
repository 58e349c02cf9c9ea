import HashLog.Exchange.Snapshot
import HashLog.Proofs.Store.Held
/-!
What a snapshot shows. `Frozen` says that a snapshot shows certain links in a store, whichever graph
lies below it. Writes to the store leave that alone (`Frozen.later`); registering a record adds its
link unless its hash shows already (`Frozen.register`).
-/
namespace HashLog

/-- The frozen graph holds these links in a store with these commits. -/
def Base.Frozen (store : Store) (commits : Commits) : Base → Edges → Prop
  | .graph g, links => g.Holds links
  | .store picture frontier, links => picture.cutoff ≤ store.medium.last ∧
      linksOf (commits.upTo picture.cutoff) = links ∧ frontier.Describes links

namespace Snapshot

/-- The snapshot shows these links: those of the frozen graph, then those registered. -/
structure Frozen (s : Snapshot) (store : Store) (commits : Commits) (links : Edges) : Prop where
  proper : links.Proper
  parts : ∃ below above, links = below ++ above ∧ s.base.Frozen store commits below ∧
    s.overlay.Holds above
  frontier : s.frontier.Describes links

variable {s : Snapshot} {store : Store} {commits : Commits} {links : Edges} {hash prev : Hash}

theorem Frozen.later {after : Store} {more : Commits} (frozen : s.Frozen store commits links)
    (later : store.Later commits after more) : s.Frozen after more links := by
  obtain ⟨proper, ⟨below, above, split, base, overlay⟩, frontier⟩ := frozen
  refine ⟨proper, ⟨below, above, split, ?_, overlay⟩, frontier⟩
  cases hb : s.base with
  | graph g => simpa [hb, Base.Frozen] using base
  | store picture f =>
    simp only [hb, Base.Frozen] at base ⊢
    obtain ⟨old, shown, described⟩ := base
    exact ⟨Nat.le_trans old later.last_le, (later.frozen old).symm ▸ shown, described⟩

private theorem base_shows {base : Base} (holds : store.Holds commits)
    (frozen : base.Frozen store commits links) : (base.view store).Shows links := by
  cases base with
  | graph g => exact LogGraph.Holds.shows frozen
  | store picture f =>
    obtain ⟨-, rfl, described⟩ := frozen
    exact holds.view_shows described

theorem Frozen.shows (frozen : s.Frozen store commits links) (holds : store.Holds commits) :
    (s.view store).Shows links := by
  obtain ⟨proper, ⟨below, above, rfl, base, overlay⟩, frontier⟩ := frozen
  have shown := base_shows holds base
  have disjoint : ∀ hash, hash ∈ above.known → hash ∉ below.known := by
    intro hash new old
    have nodup := proper.nodup
    rw [Edges.known_append, List.nodup_append] at nodup
    exact nodup.2.2 hash old hash new rfl
  refine ⟨?_, ?_, ?_, frontier⟩
  · intro hash
    rw [Snapshot.view, Bool.or_eq_true, overlay.contains_iff, shown.contains, Edges.known_append,
      List.mem_append, or_comm]
  · intro hash
    have registered : s.overlay.prevOf hash = above.prevOf hash := overlay.preds hash
    simp only [Snapshot.view, registered, shown.prevHash, Edges.prevOf_append]
    cases found : above.prevOf hash with
    | none => simp
    | some prev =>
      have new : hash ∈ above.known := Edges.known_of_mem (Edges.mem_of_prevOf found)
      simp [Edges.prevOf_eq_none.mpr (disjoint hash new)]
  · intro hash nonNull
    simp only [Snapshot.view, shown.nextHashes hash nonNull, overlay.nextOf_eq nonNull,
      Edges.nextOf_append]
    congr 1
    refine List.filter_eq_self.mpr fun child member => ?_
    have new : child ∈ above.known := Edges.known_of_mem (Edges.mem_nextOf.mp member)
    have unseen : child ∉ below.nextOf hash := fun listed =>
      disjoint child new (Edges.known_of_mem (Edges.mem_nextOf.mp listed))
    simpa using fun listed => unseen (by simpa using listed)

/-- Registering a record adds its link unless its hash shows already. -/
theorem Frozen.register (frozen : s.Frozen store commits links) (holds : store.Holds commits)
    (nonNull : hash ≠ Hash.null) :
    (s.register store hash prev).2.Frozen store commits (links.add (hash, prev)) := by
  have shows := frozen.shows holds
  by_cases known : hash ∈ links.known
  · have found := (shows.contains hash).mpr known
    simpa [Snapshot.register, found, Edges.add, known] using frozen
  · have missing : ¬ (s.view store).contains hash = true := fun found =>
      known ((shows.contains hash).mp found)
    obtain ⟨proper, ⟨below, above, rfl, base, overlay⟩, frontier⟩ := frozen
    have unregistered : hash ∉ above.known := fun member =>
      known (by rw [Edges.known_append]; exact List.mem_append_right _ member)
    have extended : Edges.Proper ((below ++ above) ++ [(hash, prev)]) :=
      Edges.proper_concat.mpr ⟨proper, known, nonNull⟩
    rw [Edges.add, if_neg known]
    simp only [Snapshot.register, missing, Bool.false_eq_true, ↓reduceIte]
    refine ⟨extended, ⟨below, above ++ [(hash, prev)], by simp, base, ?_⟩, ?_⟩
    · have inserted : (s.overlay.insert hash prev).2.Holds _ := (overlay.insert nonNull).1
      rwa [Edges.add, if_neg unregistered] at inserted
    · refine frontier.apply extended ?_ ?_ ?_ ?_
      · intro member
        have nonNullPrev := Edges.ne_null_of_mem proper member
        simp [nonNullPrev, (shows.contains prev).mpr member]
      · intro flag
        exact Or.inl ((shows.contains prev).mp (Bool.and_eq_true_iff.mp flag).2)
      · intro child member
        have listed := Edges.mem_nextOf.mpr member
        rw [← shows.nextHashes hash nonNull] at listed
        simpa using List.ne_nil_of_mem listed
      · intro flag
        rw [shows.nextHashes hash nonNull] at flag
        have nonempty : (below ++ above).nextOf hash ≠ [] := by simpa using flag
        obtain ⟨child, member⟩ := List.exists_mem_of_ne_nil _ nonempty
        exact Or.inl ⟨child, Edges.mem_nextOf.mp member⟩

theorem Frozen.registerAll {batch : List Record} (frozen : s.Frozen store commits links)
    (holds : store.Holds commits) (nonNull : ∀ record ∈ batch, record.hash ≠ Hash.null) :
    (s.registerAll store batch).Frozen store commits (links.addAll (batch.map LogGraph.edgeOf)) := by
  induction batch generalizing s links with
  | nil => exact frozen
  | cons record rest ih =>
    exact ih (frozen.register holds (nonNull record List.mem_cons_self))
      fun record member => nonNull record (List.mem_cons_of_mem _ member)

/-- A snapshot of a graph. -/
theorem frozen_graph {g : LogGraph} {cutoff : Nat} (holds : g.Holds links) :
    (ofBase cutoff (.graph g)).Frozen store commits links :=
  ⟨holds.proper, ⟨links, [], by simp, holds, LogGraph.holds_empty⟩, holds.frontier⟩

/-- A snapshot of the store. -/
theorem frozen_store {picture : StoreSnapshot} {f : Frontier} (holds : store.Holds commits)
    (old : picture.cutoff ≤ store.medium.last)
    (whole : commits.upTo picture.cutoff = commits.records) (described : f.Describes commits.links) :
    (ofBase picture.cutoff (.store picture f)).Frozen store commits commits.links := by
  refine ⟨holds.proper, ⟨commits.links, [], by simp, ⟨old, ?_, described⟩, LogGraph.holds_empty⟩,
    described⟩
  rw [whole]
  rfl

end Snapshot

end HashLog
