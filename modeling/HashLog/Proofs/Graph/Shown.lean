import HashLog.Graph.View
import HashLog.Proofs.Graph.Frontiers
/-!
Which links a graph holds and a view shows. A graph that took in links one by one holds exactly
those that were new, in order of arrival. A view says nothing about the records that name the null
hash: a graph keeps no list of them and a store does, and no walk ever asks.
-/
namespace HashLog

/-- What a view answers when it shows these links. -/
structure GraphView.Shows (view : GraphView) (links : Edges) : Prop where
  contains : ∀ hash, view.contains hash = true ↔ hash ∈ links.known
  prevHash : ∀ hash, view.prevHash hash = links.prevOf hash
  nextHashes : ∀ hash, hash ≠ Hash.null → view.nextHashes hash = links.nextOf hash
  frontier : view.frontier.Describes links

/-- The view that looks everything up in a list of links. -/
def Edges.view (links : Edges) (frontier : Frontier) : GraphView :=
  ⟨fun hash => (links.prevOf hash).isSome, links.prevOf, links.nextOf, frontier⟩

theorem Edges.view_shows {links : Edges} {f : Frontier} (described : f.Describes links) :
    (links.view f).Shows links :=
  ⟨fun _ => prevOf_isSome, fun _ => rfl, fun _ _ => rfl, described⟩

/-- Adds a link unless its hash is known. -/
def Edges.add (links : Edges) (link : Hash × Hash) : Edges :=
  if link.1 ∈ links.known then links else links ++ [link]

/-- Adds links in order. -/
def Edges.addAll (links more : Edges) : Edges := more.foldl Edges.add links

/-- Links of which none is known are added as they are. -/
theorem Edges.addAll_eq_append {links more : Edges} (nodup : (links ++ more).known.Nodup) :
    links.addAll more = links ++ more := by
  induction more generalizing links with
  | nil => simp [addAll]
  | cons link rest ih =>
    have split : links ++ link :: rest = (links ++ [link]) ++ rest := by simp
    have fresh : link.1 ∉ links.known := by
      rw [known_append, List.nodup_append] at nodup
      exact fun old => nodup.2.2 link.1 old link.1 List.mem_cons_self rfl
    have added : links.add link = links ++ [link] := if_neg fresh
    rw [addAll, List.foldl_cons, ← addAll, added, ih (split ▸ nodup), split]

namespace LogGraph

variable {g : LogGraph} {links : Edges} {hash prev : Hash}

/-- The tables of the graph hold exactly these links. -/
structure Lists (g : LogGraph) (links : Edges) : Prop where
  nodup : links.known.Nodup
  preds : ∀ hash, g.preds[hash]? = links.prevOf hash
  succs : ∀ hash, g.succs[hash]? =
    if hash = Hash.null ∨ links.nextOf hash = [] then none else some (links.nextOf hash)

/-- The graph of exactly these links. The null hash is none of those known: as a known hash it would
retire the begins that wait for nothing. -/
structure Holds (g : LogGraph) (links : Edges) : Prop extends g.Lists links where
  no_null : Hash.null ∉ links.known
  frontier : g.frontier.Describes links

theorem Holds.proper (holds : g.Holds links) : links.Proper := ⟨holds.nodup, holds.no_null⟩

theorem lists_empty : empty.Lists [] :=
  ⟨List.nodup_nil, by simp [empty, Edges.prevOf], by simp [empty, Edges.nextOf]⟩

theorem holds_empty : empty.Holds [] := ⟨lists_empty, by simp, Frontier.describes_empty⟩

theorem Lists.contains_iff (lists : g.Lists links) : g.contains hash = true ↔ hash ∈ links.known := by
  rw [contains, Std.TreeMap.contains_eq_isSome_getElem?, lists.preds, Edges.prevOf_isSome]

theorem Lists.nextOf_eq (lists : g.Lists links) (nonNull : hash ≠ Hash.null) :
    g.nextOf hash = links.nextOf hash := by
  rw [nextOf, Std.TreeMap.getD_eq_getD_getElem?, lists.succs]
  by_cases none : links.nextOf hash = []
  · simp [none]
  · simp [none, nonNull]

private theorem Lists.preds_add (lists : g.Lists links) (fresh : hash ∉ links.known) (other : Hash) :
    (g.add hash prev).preds[other]? = (links ++ [(hash, prev)]).prevOf other := by
  rw [LogGraph.add, Std.TreeMap.getElem?_insert, Edges.prevOf_append, ← lists.preds]
  by_cases same : other = hash
  · subst same
    have unlisted : links.lookup other = none := Edges.prevOf_eq_none.mpr fresh
    simp [Edges.prevOf, lists.preds, unlisted]
  · have differs : (other == hash) = false := by simpa using same
    simp [Ne.symm same, Edges.prevOf, List.lookup_cons, differs]

private theorem Lists.succs_add (lists : g.Lists links) (other : Hash) : (g.add hash prev).succs[other]? =
    if other = Hash.null ∨ (links ++ [(hash, prev)]).nextOf other = [] then none
    else some ((links ++ [(hash, prev)]).nextOf other) := by
  rw [Edges.nextOf_append, Edges.nextOf_singleton]
  by_cases null : prev = Hash.null
  · simp only [LogGraph.add, null, Hash.isNull_eq_true, ↓reduceIte, lists.succs]
    by_cases same : other = Hash.null
    · simp [same]
    · simp [Ne.symm same]
  · simp only [LogGraph.add, null, Hash.isNull_eq_true, ↓reduceIte,
      Std.TreeMap.getElem?_insert, Std.LawfulEqCmp.compare_eq_iff_eq]
    by_cases same : prev = other
    · subst same
      simp [null, lists.nextOf_eq null]
    · simp [same, lists.succs]

theorem Lists.add (lists : g.Lists links) (fresh : hash ∉ links.known) :
    (g.add hash prev).Lists (links ++ [(hash, prev)]) :=
  ⟨Edges.nodup_concat.mpr ⟨lists.nodup, fresh⟩, lists.preds_add fresh, lists.succs_add⟩

theorem Holds.add (holds : g.Holds links) (fresh : hash ∉ links.known) (nonNull : hash ≠ Hash.null) :
    (g.add hash prev).Holds (links ++ [(hash, prev)]) := by
  have proper : Edges.Proper (links ++ [(hash, prev)]) :=
    Edges.proper_concat.mpr ⟨holds.proper, fresh, nonNull⟩
  have added : (g.add hash prev).Lists (links ++ [(hash, prev)]) := holds.toLists.add fresh
  refine ⟨added, proper.no_null, holds.frontier.apply proper ?_ ?_ ?_ ?_⟩
  · intro member
    have nonNullPrev := Edges.ne_null_of_mem holds.proper member
    have found : (g.add hash prev).contains prev = true := by
      rw [added.contains_iff, Edges.known_append]
      exact List.mem_append_left _ member
    rw [contains, LogGraph.add] at found
    simp [nonNullPrev, found]
  · intro flag
    have found : (g.add hash prev).contains prev = true := (Bool.and_eq_true_iff.mp flag).2
    rw [added.contains_iff] at found
    simpa using found
  · intro child member
    have listed : (g.add hash prev).succs[hash]?.isSome = true := by
      rw [added.succs, if_neg]
      · rfl
      · rintro (null | none)
        · exact nonNull null
        · have := Edges.mem_nextOf.mpr (List.mem_append_left [(hash, prev)] member)
          simp [none] at this
    rw [← Std.TreeMap.contains_eq_isSome_getElem?] at listed
    exact listed
  · intro flag
    have listed : (g.add hash prev).succs[hash]?.isSome = true := by
      rw [← Std.TreeMap.contains_eq_isSome_getElem?]; exact flag
    rw [added.succs] at listed
    split at listed
    · cases listed
    · rename_i some
      obtain ⟨child, member⟩ := List.exists_mem_of_ne_nil _ (not_or.mp some).2
      rcases List.mem_append.mp (Edges.mem_nextOf.mp member) with old | new
      · exact Or.inl ⟨child, old⟩
      · exact Or.inr (by simpa using (Prod.mk.inj (List.mem_singleton.mp new)).2.symm)

theorem Lists.insert (lists : g.Lists links) : (g.insert hash prev).2.Lists (links.add (hash, prev)) := by
  by_cases known : hash ∈ links.known
  · have found := lists.contains_iff.mpr known
    simpa [LogGraph.insert, found, Edges.add, known] using lists
  · have missing : g.contains hash = false := by
      rw [Bool.eq_false_iff, ne_eq, lists.contains_iff]; exact known
    simpa [LogGraph.insert, missing, Edges.add, known] using lists.add known

/-- Taking in a link adds it if its hash is new, and says so. -/
theorem Holds.insert (holds : g.Holds links) (nonNull : hash ≠ Hash.null) :
    (g.insert hash prev).2.Holds (links.add (hash, prev)) ∧
      ((g.insert hash prev).1 = true ↔ hash ∉ links.known) := by
  by_cases known : hash ∈ links.known
  · have found := holds.contains_iff.mpr known
    simpa [LogGraph.insert, found, Edges.add, known] using holds
  · have missing : g.contains hash = false := by
      rw [Bool.eq_false_iff, ne_eq, holds.contains_iff]; exact known
    simpa [LogGraph.insert, missing, Edges.add, known] using holds.add known nonNull

theorem ingest_snd :
    (g.ingest links).2 = links.foldl (fun g link => (g.insert link.1 link.2).2) g := by
  have folded : ∀ (count : Nat) (g : LogGraph), (links.foldl
      (fun state link => (if (state.2.insert link.1 link.2).1 then state.1 + 1 else state.1,
        (state.2.insert link.1 link.2).2)) (count, g)).2 =
      links.foldl (fun g link => (g.insert link.1 link.2).2) g := by
    induction links with
    | nil => exact fun _ _ => rfl
    | cons link rest ih => exact fun count g => ih _ _
  exact folded 0 g

theorem ofEdges_concat {link : Hash × Hash} :
    ofEdges (links ++ [link]) = ((ofEdges links).insert link.1 link.2).2 := by
  rw [ofEdges, ofEdges, ingest_snd, ingest_snd, List.foldl_concat]

theorem Holds.ingest {more : Edges} (holds : g.Holds links)
    (nonNull : ∀ link ∈ more, link.1 ≠ Hash.null) : (g.ingest more).2.Holds (links.addAll more) := by
  rw [ingest_snd]
  induction more generalizing g links with
  | nil => exact holds
  | cons link rest ih =>
    exact ih (holds.insert (nonNull link List.mem_cons_self)).1
      fun link member => nonNull link (List.mem_cons_of_mem _ member)

theorem lists_ofEdges (nodup : links.known.Nodup) : (ofEdges links).Lists links := by
  have loaded : ∀ {g : LogGraph} {before : Edges}, g.Lists before →
      (g.ingest links).2.Lists (before.addAll links) := by
    clear nodup
    intro g before lists
    rw [ingest_snd]
    induction links generalizing g before with
    | nil => exact lists
    | cons link rest ih => exact ih lists.insert
  have added := loaded lists_empty
  rwa [Edges.addAll_eq_append (by simpa using nodup), List.nil_append] at added

/-- The graph of links of which none repeats a hash. -/
theorem holds_ofEdges (proper : links.Proper) : (ofEdges links).Holds links := by
  have loaded : (ofEdges links).Holds (Edges.addAll [] links) := holds_empty.ingest fun link member =>
    Edges.ne_null_of_mem proper (Edges.known_of_mem member)
  rwa [Edges.addAll_eq_append (by simpa using proper.nodup), List.nil_append] at loaded

theorem Holds.shows (holds : g.Holds links) : g.view.Shows links where
  contains _ := holds.contains_iff
  prevHash hash := holds.preds hash
  nextHashes _ nonNull := holds.nextOf_eq nonNull
  frontier := holds.frontier

end LogGraph

/-! ## Views that answer as a graph -/

namespace GraphView

/-- The view answers as the graph does: every question about a hash other than null, with lists in
the same order, and the begins and ends. -/
structure AnswersAs (view : GraphView) (g : LogGraph) : Prop where
  contains : ∀ hash ≠ Hash.null, view.contains hash = g.contains hash
  prevHash : ∀ hash ≠ Hash.null, view.prevHash hash = g.prevOf hash
  knownPrev : ∀ hash ≠ Hash.null, view.knownPrev hash = g.view.knownPrev hash
  nextHashes : ∀ hash ≠ Hash.null, view.nextHashes hash = g.nextOf hash
  begins : view.frontier.beginList = g.frontier.beginList
  beginEdges : view.frontier.beginEdges = g.frontier.beginEdges
  ends : view.frontier.endList = g.frontier.endList

variable {view : GraphView} {g : LogGraph} {links : Edges}

/-- A recorded predecessor is known where it shows, so the other answers determine that one. -/
theorem answersAs_of_alike (contains : ∀ hash ≠ Hash.null, view.contains hash = g.contains hash)
    (prevHash : ∀ hash ≠ Hash.null, view.prevHash hash = g.prevOf hash)
    (nextHashes : ∀ hash ≠ Hash.null, view.nextHashes hash = g.nextOf hash)
    (frontier : view.frontier.Alike g.frontier) : view.AnswersAs g where
  contains := contains
  prevHash := prevHash
  nextHashes := nextHashes
  begins := frontier.beginList_eq
  beginEdges := frontier.beginEdges_eq
  ends := frontier.endList_eq
  knownPrev hash nonNull := by
    rw [knownPrev, knownPrev, prevHash hash nonNull]
    cases recorded : g.prevOf hash with
    | none => simp [LogGraph.view, recorded]
    | some prev =>
      by_cases null : prev = Hash.null
      · simp [LogGraph.view, recorded, null]
      · simp [LogGraph.view, recorded, contains prev null]

/-- A graph answers as itself. -/
theorem AnswersAs.of_graph : g.view.AnswersAs g := ⟨by simp [LogGraph.view], by simp [LogGraph.view],
  fun _ _ => rfl, by simp [LogGraph.view], rfl, rfl, rfl⟩

theorem AnswersAs.frontier (answers : view.AnswersAs g) : view.frontier.Alike g.frontier :=
  .of_lists answers.beginEdges answers.ends

/-- Looking links up gives the answers of a graph that lists them. -/
theorem answersAs_of_lists {f : Frontier} (lists : g.Lists links) (alike : f.Alike g.frontier) :
    (links.view f).AnswersAs g := by
  apply answersAs_of_alike
  · intro hash _
    rw [Bool.eq_iff_iff, lists.contains_iff, Edges.view, Edges.prevOf_isSome]
  · intro hash _
    rw [LogGraph.prevOf, lists.preds, Edges.view]
  · intro hash nonNull
    rw [lists.nextOf_eq nonNull, Edges.view]
  · exact alike

end GraphView

end HashLog
