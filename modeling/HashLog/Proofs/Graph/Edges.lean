import HashLog.Graph.HashSet
import Mathlib.Data.List.Nodup
/-!
The links of a log as a list: each known hash with the predecessor recorded for it, in commit order.
A list of links is what a graph in memory, a cut-off store and a snapshot with registered records
have in common, so that what walks find can be stated without saying which of them they ran on.
-/
namespace HashLog

@[simp] theorem HashSet.mem_ofList {hashes : List Hash} {hash : Hash} :
    hash ∈ HashSet.ofList hashes ↔ hash ∈ hashes := by
  simp [HashSet.ofList]

@[simp] theorem Hash.isNull_eq_false {hash : Hash} : hash.isNull = false ↔ hash ≠ Hash.null := by
  rw [← Bool.not_eq_true, Hash.isNull_eq_true]

/-- Each known hash with the predecessor recorded for it, in commit order. -/
abbrev Edges := List (Hash × Hash)

namespace Edges

/-- The hashes with a link. -/
def known (links : Edges) : List Hash := links.map Prod.fst

/-- The predecessor recorded for a hash. -/
def prevOf (links : Edges) (hash : Hash) : Option Hash := links.lookup hash

/-- The hashes that name a hash as predecessor, in commit order. -/
def nextOf (links : Edges) (hash : Hash) : List Hash :=
  (links.filter fun link => link.2 == hash).map Prod.fst

/-- No hash is recorded twice, and the null hash never. -/
structure Proper (links : Edges) : Prop where
  nodup : links.known.Nodup
  no_null : Hash.null ∉ links.known

variable {links more : Edges} {hash prev child : Hash}

theorem mem_known : hash ∈ links.known ↔ ∃ prev, (hash, prev) ∈ links := by
  simp [known]

theorem known_of_mem (member : (hash, prev) ∈ links) : hash ∈ links.known :=
  mem_known.mpr ⟨prev, member⟩

@[simp] theorem known_append : (links ++ more).known = links.known ++ more.known := by
  simp [known]

@[simp] theorem known_cons {link : Hash × Hash} :
    Edges.known (link :: links) = link.1 :: links.known := rfl

@[simp] theorem known_nil : Edges.known [] = [] := rfl

@[simp] theorem mem_nextOf : child ∈ links.nextOf hash ↔ (child, hash) ∈ links := by
  simp [nextOf]

@[simp] theorem nextOf_append : (links ++ more).nextOf hash = links.nextOf hash ++ more.nextOf hash := by
  simp [nextOf]

theorem nextOf_singleton : Edges.nextOf [(child, prev)] hash = if prev = hash then [child] else [] := by
  by_cases same : prev = hash <;> simp [nextOf, same]

theorem prevOf_append :
    (links ++ more).prevOf hash = (links.prevOf hash).or (more.prevOf hash) := by
  induction links with
  | nil => simp [prevOf]
  | cons link rest ih =>
    obtain ⟨first, named⟩ := link
    simp only [prevOf, List.cons_append, List.lookup_cons] at ih ⊢
    split
    · simp
    · exact ih

theorem prevOf_isSome : (links.prevOf hash).isSome = true ↔ hash ∈ links.known := by
  induction links with
  | nil => simp [prevOf]
  | cons link rest ih =>
    obtain ⟨first, named⟩ := link
    simp only [prevOf, List.lookup_cons, known_cons, List.mem_cons] at ih ⊢
    by_cases same : hash = first
    · simp [same]
    · have differs : (hash == first) = false := by simpa using same
      simpa [differs, same] using ih

theorem prevOf_eq_none : links.prevOf hash = none ↔ hash ∉ links.known := by
  rw [← prevOf_isSome, Option.not_isSome_iff_eq_none]

theorem mem_of_prevOf (found : links.prevOf hash = some prev) : (hash, prev) ∈ links := by
  induction links with
  | nil => simp [prevOf] at found
  | cons link rest ih =>
    obtain ⟨first, named⟩ := link
    simp only [prevOf, List.lookup_cons] at found ih
    split at found
    · rename_i same
      obtain rfl : hash = first := by simpa using same
      obtain rfl : named = prev := by simpa using found
      exact List.mem_cons_self
    · exact List.mem_cons_of_mem _ (ih found)

/-- In a proper list the recorded predecessor is the only one. -/
theorem prevOf_eq_some (proper : links.Proper) :
    links.prevOf hash = some prev ↔ (hash, prev) ∈ links := by
  refine ⟨mem_of_prevOf, ?_⟩
  intro member
  obtain ⟨other, found⟩ := Option.isSome_iff_exists.mp (prevOf_isSome.mpr (known_of_mem member))
  have same : (hash, other) = (hash, prev) :=
    List.inj_on_of_nodup_map proper.nodup (mem_of_prevOf found) member rfl
  rw [found, (Prod.mk.inj same).2]

theorem ne_null_of_mem (proper : links.Proper) (member : hash ∈ links.known) : hash ≠ Hash.null :=
  fun same => proper.no_null (same ▸ member)

theorem proper_nil : Edges.Proper [] := ⟨List.nodup_nil, by simp⟩

theorem nodup_concat :
    (links ++ [(hash, prev)]).known.Nodup ↔ links.known.Nodup ∧ hash ∉ links.known := by
  rw [known_append, List.nodup_append]
  constructor
  · rintro ⟨nodup, -, disjoint⟩
    exact ⟨nodup, fun member => disjoint hash member hash List.mem_cons_self rfl⟩
  · rintro ⟨nodup, fresh⟩
    refine ⟨nodup, List.nodup_singleton _, ?_⟩
    intro old member new single same
    obtain rfl := List.mem_singleton.mp single
    exact fresh (same ▸ member)

theorem proper_concat :
    Edges.Proper (links ++ [(hash, prev)]) ↔
      links.Proper ∧ hash ∉ links.known ∧ hash ≠ Hash.null := by
  have null : Hash.null ∉ (links ++ [(hash, prev)]).known ↔
      Hash.null ∉ links.known ∧ hash ≠ Hash.null := by
    simp [eq_comm]
  constructor
  · rintro ⟨nodup, noNull⟩
    exact ⟨⟨(nodup_concat.mp nodup).1, (null.mp noNull).1⟩, (nodup_concat.mp nodup).2, (null.mp noNull).2⟩
  · rintro ⟨⟨nodup, noNull⟩, fresh, nonNull⟩
    exact ⟨nodup_concat.mpr ⟨nodup, fresh⟩, null.mpr ⟨noNull, nonNull⟩⟩

end Edges

end HashLog
