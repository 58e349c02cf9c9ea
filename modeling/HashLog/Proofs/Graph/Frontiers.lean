import HashLog.Graph.Frontier
import HashLog.Proofs.Graph.Edges
/-!
The frontier of a list of links. `Describes` says by a look at the whole list which hashes are
begins and which are ends; `Describes.apply` says that accounting for one more record, which looks
at nothing but two flags, keeps to that. A frontier is thereby determined by the links, and so are
the lists that a message carries.
-/
namespace HashLog

/-- A record begins the log if it names no known predecessor. -/
def Edges.Begins (links : Edges) (hash prev : Hash) : Prop :=
  (hash, prev) ∈ links ∧ (prev = Hash.null ∨ prev ∉ links.known)

/-- A record ends the log if no known record names it as predecessor. -/
def Edges.Ends (links : Edges) (hash : Hash) : Prop :=
  hash ∈ links.known ∧ ∀ child, (child, hash) ∉ links

namespace Frontier

variable {f g : Frontier} {links : Edges} {hash prev : Hash}

/-- The frontier lists exactly the begins, with their predecessors, and the ends of the links. -/
structure Describes (f : Frontier) (links : Edges) : Prop where
  begins : ∀ hash prev, f.begins[hash]? = some prev ↔ links.Begins hash prev
  ends : ∀ hash, hash ∈ f.ends ↔ links.Ends hash

theorem describes_empty : Frontier.empty.Describes [] :=
  ⟨by simp [Frontier.empty, Edges.Begins], by simp [Frontier.empty, Edges.Ends]⟩

theorem begins_addBegin {other : Hash} (fresh : f.begins[hash]? = none) :
    (f.addBegin hash prev).begins[other]? = if other = hash then some prev else f.begins[other]? := by
  have absent : hash ∉ f.begins := by
    rw [← Std.TreeMap.isSome_getElem?_iff_mem, fresh]; simp
  rw [addBegin, Std.TreeMap.getElem?_insertIfNew]
  by_cases same : other = hash
  · simp [same, absent]
  · simp [same, Ne.symm same]

theorem begins_addBegin_iff {other named : Hash} :
    (f.addBegin hash prev).begins[other]? = some named ↔
      f.begins[other]? = some named ∨ (other = hash ∧ named = prev ∧ f.begins[hash]? = none) := by
  cases found : f.begins[hash]? with
  | none =>
    rw [begins_addBegin found]
    by_cases same : other = hash
    · simp [same, found, eq_comm]
    · simp [same]
  | some held =>
    have present : hash ∈ f.begins := Std.TreeMap.isSome_getElem?_iff_mem.mp (by simp [found])
    simp [addBegin, Std.TreeMap.getElem?_insertIfNew, present]

theorem begins_retire {other : Hash} :
    (f.retire hash).begins[other]? = some prev ↔ f.begins[other]? = some prev ∧ prev ≠ hash := by
  rw [retire, Std.TreeMap.getElem?_filter']
  cases f.begins[other]? with
  | none => simp
  | some found =>
    simp only [Option.filter_some, bne_iff_ne, ne_eq, Option.some.injEq]
    by_cases named : found = hash
    · simp only [named, not_true_eq_false, ↓reduceIte]
      constructor
      · intro h; cases h
      · intro h; exact absurd h.1.symm h.2
    · simp only [named, not_false_eq_true, ↓reduceIte, Option.some.injEq]
      exact ⟨fun h => ⟨h, h ▸ named⟩, fun h => h.1⟩

/-- The begins after one more record: those before it and the record itself if it is one, without
those that name it. -/
private theorem begins_apply {prevKnown hasSuccessor : Bool} {other named : Hash} :
    (f.apply hash prev prevKnown hasSuccessor).begins[other]? = some named ↔
      (if prev.isNull || !prevKnown then f.addBegin hash prev else f).begins[other]? = some named ∧
        named ≠ hash := by
  simp only [Frontier.apply]
  split <;> split <;> split <;> exact begins_retire

private theorem mem_ends_apply {prevKnown hasSuccessor : Bool} {other : Hash} :
    other ∈ (f.apply hash prev prevKnown hasSuccessor).ends ↔
      (prev = Hash.null ∨ other ≠ prev) ∧ (other ∈ f.ends ∨ (hasSuccessor = false ∧ other = hash)) := by
  simp only [Frontier.apply, Frontier.retire, Frontier.addBegin]
  cases hasSuccessor <;> by_cases null : prev = Hash.null <;> by_cases begin : prevKnown = true <;>
    simp [null, begin] <;> grind

/-- The same begins with the same predecessors, and the same ends. -/
structure Alike (f g : Frontier) : Prop where
  begins : ∀ hash : Hash, f.begins[hash]? = g.begins[hash]?
  ends : ∀ hash, hash ∈ f.ends ↔ hash ∈ g.ends

theorem Alike.beginEdges_eq (alike : f.Alike g) : f.beginEdges = g.beginEdges :=
  (Std.TreeMap.Equiv.of_forall_constGet?_eq alike.begins).toList_eq

theorem Alike.beginList_eq (alike : f.Alike g) : f.beginList = g.beginList :=
  (Std.TreeMap.Equiv.of_forall_constGet?_eq alike.begins).keys_eq

theorem Alike.endList_eq (alike : f.Alike g) : f.endList = g.endList :=
  (Std.TreeSet.Equiv.of_forall_mem_iff alike.ends).toList_eq

/-- Frontiers that list the same are alike. -/
theorem Alike.of_lists (begins : f.beginEdges = g.beginEdges) (ends : f.endList = g.endList) :
    f.Alike g := by
  constructor
  · intro hash
    ext prev
    rw [← Std.TreeMap.mem_toList_iff_getElem?_eq_some, ← Std.TreeMap.mem_toList_iff_getElem?_eq_some,
      ← beginEdges, begins, beginEdges]
  · intro hash
    rw [← Std.TreeSet.mem_toList, ← Std.TreeSet.mem_toList, ← endList, ends, endList]

/-- The same record keeps frontiers alike. A record that names itself may count as known, and as
named, on one side only: it is no begin and no end either way. -/
theorem Alike.apply {prevKnown prevKnown' hasSuccessor hasSuccessor' : Bool} (alike : f.Alike g)
    (known : prev ≠ hash → prevKnown = prevKnown')
    (named : prev ≠ hash → hasSuccessor = hasSuccessor') (nonNull : hash ≠ Hash.null) :
    (f.apply hash prev prevKnown hasSuccessor).Alike (g.apply hash prev prevKnown' hasSuccessor') := by
  constructor
  · intro other
    ext named
    rw [begins_apply, begins_apply]
    apply and_congr_left
    intro kept
    by_cases itself : prev = hash
    · -- the begin that such a record makes of itself is retired at once
      have unmade (f : Frontier) (flag : Bool) :
          (if flag then f.addBegin hash prev else f).begins[other]? = some named ↔
            f.begins[other]? = some named := by
        cases flag
        · rfl
        · simp [begins_addBegin_iff, itself, kept]
      rw [unmade, unmade, alike.begins]
    · rw [known itself]
      split
      · rw [begins_addBegin_iff, begins_addBegin_iff, alike.begins, alike.begins]
      · rw [alike.begins]
  · intro other
    rw [mem_ends_apply, mem_ends_apply, alike.ends]
    by_cases itself : prev = hash
    · subst itself
      grind
    · rw [named itself]

/-- One more record. Whether the record itself counts as known when its flags are found makes no
difference, which matters only to a record that names itself. -/
theorem Describes.apply {prevKnown hasSuccessor : Bool} (described : f.Describes links)
    (proper : Edges.Proper (links ++ [(hash, prev)]))
    (known : prev ∈ links.known → prevKnown = true)
    (known_only : prevKnown = true → prev ∈ links.known ∨ prev = hash)
    (named : ∀ child, (child, hash) ∈ links → hasSuccessor = true)
    (named_only : hasSuccessor = true → (∃ child, (child, hash) ∈ links) ∨ prev = hash) :
    (f.apply hash prev prevKnown hasSuccessor).Describes (links ++ [(hash, prev)]) := by
  obtain ⟨proper, fresh, nonNull⟩ := Edges.proper_concat.mp proper
  have unlisted : f.begins[hash]? = none := by
    rw [Option.eq_none_iff_forall_not_mem]
    exact fun other found =>
      fresh (Edges.known_of_mem ((described.begins hash other).mp found).1)
  constructor
  · intro other named'
    rw [begins_apply]
    simp only [Edges.Begins, List.mem_append, List.mem_singleton, Prod.mk.injEq, Edges.known_append,
      Edges.known_cons, Edges.known_nil, not_or]
    by_cases begin : (prev.isNull || !prevKnown) = true
    · rw [if_pos begin, begins_addBegin unlisted]
      have dangling : prev = Hash.null ∨ prev ∉ links.known := by
        rcases Bool.or_eq_true_iff.mp begin with null | unknown
        · exact Or.inl (by simpa using null)
        · exact Or.inr fun member => by simp [known member] at unknown
      by_cases same : other = hash
      · subst same
        have unlinked : ∀ p, (other, p) ∉ links := fun p member =>
          fresh (Edges.known_of_mem member)
        simp only [↓reduceIte, Option.some.injEq, unlinked, false_or, true_and]
        grind
      · have := described.begins other named'
        simp only [Edges.Begins] at this
        simp only [same, ↓reduceIte, false_and, or_false, this]
        grind
    · rw [if_neg begin]
      have known : prev ∈ links.known ∨ prev = hash := by
        apply known_only
        simpa using (not_or.mp (fun h => begin (Bool.or_eq_true_iff.mpr h))).2
      have nonNullPrev : prev ≠ Hash.null := by
        intro null; exact begin (by simp [null])
      have := described.begins other named'
      simp only [Edges.Begins] at this
      rw [this]
      grind
  · intro other
    rw [mem_ends_apply, described.ends]
    simp only [Edges.Ends, List.mem_append, List.mem_singleton, Prod.mk.injEq, Edges.known_append,
      Edges.known_cons, Edges.known_nil, not_or]
    have nonNullKnown : Hash.null ∉ links.known := proper.no_null
    cases hasSuccessor <;> grind

private theorem begins_foldl {parts : List (Hash × Hash)} (hash prev : Hash) (distinct : (parts.map Prod.fst).Nodup)
    (disjoint : ∀ part ∈ parts, f.begins[part.1]? = none) :
    (parts.foldl (fun f (hash, prev) => f.addBegin hash prev) f).begins[hash]? = some prev ↔
      f.begins[hash]? = some prev ∨ (hash, prev) ∈ parts := by
  induction parts generalizing f with
  | nil => simp
  | cons part rest ih =>
    obtain ⟨first, named⟩ := part
    obtain ⟨notRest, distinct⟩ := List.nodup_cons.mp distinct
    have fresh : f.begins[first]? = none := disjoint (first, named) List.mem_cons_self
    have later : ∀ part ∈ rest, (f.addBegin first named).begins[part.1]? = none := by
      intro part member
      have differs : part.1 ≠ first := fun same => notRest (List.mem_map.mpr ⟨part, member, same⟩)
      rw [begins_addBegin fresh, if_neg differs]
      exact disjoint part (List.mem_cons_of_mem _ member)
    rw [List.foldl_cons, ih distinct later, begins_addBegin fresh, List.mem_cons]
    by_cases same : hash = first
    · subst same
      simp [fresh, eq_comm]
    · simp [same]

/-- A frontier put together from the begins and ends of the links. -/
theorem describes_ofParts {parts : List (Hash × Hash)} {ends : List Hash}
    (distinct : (parts.map Prod.fst).Nodup)
    (begins : ∀ hash prev, (hash, prev) ∈ parts ↔ links.Begins hash prev)
    (ended : ∀ hash, hash ∈ ends ↔ links.Ends hash) : (ofParts parts ends).Describes links := by
  constructor
  · intro hash prev
    rw [← begins]
    have folded := begins_foldl (f := empty) hash prev distinct (by simp [empty])
    simpa [ofParts, empty] using folded
  · intro hash
    rw [← ended]
    simp [ofParts]

theorem nodup_beginEdges : (f.beginEdges.map Prod.fst).Nodup := by
  rw [List.Nodup, List.pairwise_map]
  exact f.begins.distinct_keys_toList.imp fun differs same => differs (by simp [same])

/-- A frontier put together from the lists of another. -/
theorem alike_ofParts : (ofParts f.beginEdges f.endList).Alike f := by
  constructor
  · intro hash
    ext prev
    have folded := begins_foldl (f := empty) hash prev f.nodup_beginEdges (by simp [empty])
    rw [← Std.TreeMap.mem_toList_iff_getElem?_eq_some (t := f.begins), ← beginEdges]
    simpa [ofParts, empty] using folded
  · intro hash
    simp [ofParts, endList]

variable (described : f.Describes links)
include described

/-- What a frontier describes is a set of links; their order does not matter. -/
theorem Describes.congr {links' : Edges} (same : ∀ link, link ∈ links ↔ link ∈ links') :
    f.Describes links' := by
  obtain ⟨begins, ends⟩ := described
  simp only [Edges.Begins, Edges.Ends, Edges.mem_known, same] at begins ends
  constructor <;> simpa only [Edges.Begins, Edges.Ends, Edges.mem_known]

theorem Describes.mem_beginList : hash ∈ f.beginList ↔ ∃ prev, links.Begins hash prev := by
  simp only [beginList, Std.TreeMap.mem_keys, ← described.begins,
    ← Std.TreeMap.isSome_getElem?_iff_mem, Option.isSome_iff_exists]

theorem Describes.mem_endList : hash ∈ f.endList ↔ links.Ends hash := by
  rw [endList, Std.TreeSet.mem_toList, described.ends]

theorem Describes.mem_beginEdges : (hash, prev) ∈ f.beginEdges ↔ links.Begins hash prev := by
  rw [beginEdges, Std.TreeMap.mem_toList_iff_getElem?_eq_some, described.begins]

theorem Describes.isBegin_iff : f.isBegin hash = true ↔ ∃ prev, links.Begins hash prev := by
  rw [← described.mem_beginList, beginList, Std.TreeMap.mem_keys, isBegin, Std.TreeMap.contains_iff_mem]

theorem Describes.isEnd_iff : f.isEnd hash = true ↔ links.Ends hash := by
  rw [← described.ends, isEnd, Std.TreeSet.contains_iff_mem]

/-- Frontiers of the same links are alike. -/
theorem Describes.alike (other : g.Describes links) : f.Alike g :=
  ⟨fun hash => by ext prev; rw [described.begins, other.begins],
    fun hash => by rw [described.ends, other.ends]⟩

/-- Frontiers of the same links list the same begins in the same order. -/
theorem Describes.beginList_eq (other : g.Describes links) : f.beginList = g.beginList :=
  (described.alike other).beginList_eq

/-- Frontiers of the same links list the same ends in the same order. -/
theorem Describes.endList_eq (other : g.Describes links) : f.endList = g.endList :=
  (described.alike other).endList_eq

end Frontier

end HashLog
