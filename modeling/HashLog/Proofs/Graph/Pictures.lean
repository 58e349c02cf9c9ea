import HashLog.Proofs.Graph.Lineage
import HashLog.Proofs.Graph.Reach
/-!
Views of records that are drawn from a consistent set. Of such a view all that matters is which
hashes it shows: the links between them are those that the records name. No walk over it meets a
cycle, and a component that the limit does not cut holds whatever leads to its addresses.
-/
namespace HashLog

/-- The view shows these hashes, linked as the records name them. -/
structure GraphView.Pictures (view : GraphView) (records : Set Record) (shown : Finset Hash) :
    Prop where
  contains : ∀ hash, view.contains hash = true ↔ hash ∈ shown
  precedes : ∀ child prev, view.Precedes child prev ↔ Parent records shown prev child
  follows : ∀ prev child, prev ∈ shown →
    (view.Follows prev child ↔ Parent records shown prev child)
  begins : ∀ hash, hash ∈ view.frontier.beginList ↔ IsBegin records shown hash
  ends : ∀ hash, hash ∈ view.frontier.endList ↔ IsEnd records shown hash

variable {records : Set Record} {batch : List Record} {hash prev : Hash}

theorem begins_linksOf (consistent : Consistent records) (drawn : ∀ r ∈ batch, r ∈ records) :
    (∃ prev, (linksOf batch).Begins hash prev) ↔ IsBegin records (hashesIn batch).toFinset hash := by
  have noNull : Hash.null ∉ hashesIn batch := by
    rw [mem_hashesIn]
    rintro ⟨r, member, null⟩
    exact consistent.no_null r (drawn r member) null
  simp only [Edges.Begins, mem_linksOf_iff consistent drawn, known_linksOf, IsBegin,
    List.mem_toFinset]
  constructor
  · rintro ⟨prev, ⟨member, names⟩, unknown⟩
    refine ⟨member, ?_⟩
    intro other named present
    obtain rfl := consistent.names_unique names named
    exact unknown.elim (fun null => noNull (null ▸ present)) fun absent => absent present
  · rintro ⟨member, unknown⟩
    obtain ⟨r, rIn, rfl⟩ := mem_hashesIn.mp member
    have names : Names records r.hash r.prev := ⟨r, drawn r rIn, rfl, rfl⟩
    exact ⟨r.prev, ⟨member, names⟩, Or.inr (unknown r.prev names)⟩

theorem ends_linksOf (consistent : Consistent records) (drawn : ∀ r ∈ batch, r ∈ records) :
    (linksOf batch).Ends hash ↔ IsEnd records (hashesIn batch).toFinset hash := by
  simp [Edges.Ends, mem_linksOf_iff consistent drawn, IsEnd]

namespace GraphView

variable {view : GraphView} {shown : Finset Hash}

/-- A view of the links of records pictures their hashes. -/
theorem Shows.pictures (shows : view.Shows (linksOf batch)) (proper : (linksOf batch).Proper)
    (consistent : Consistent records) (drawn : ∀ r ∈ batch, r ∈ records) :
    view.Pictures records (hashesIn batch).toFinset := by
  have linked : ∀ child prev, (child, prev) ∈ linksOf batch ↔
      child ∈ (hashesIn batch).toFinset ∧ Names records child prev := fun child prev => by
    rw [mem_linksOf_iff consistent drawn, List.mem_toFinset]
  have contains : ∀ hash, view.contains hash = true ↔ hash ∈ (hashesIn batch).toFinset :=
    fun hash => by rw [shows.contains, known_linksOf, List.mem_toFinset]
  have nonNull : ∀ hash ∈ (hashesIn batch).toFinset, hash ≠ Hash.null := fun hash member =>
    Edges.ne_null_of_mem proper (by simpa using member)
  refine ⟨contains, ?_, ?_, ?_, ?_⟩
  · intro child prev
    have named := (Edges.prevOf_eq_some proper).trans (linked child prev)
    rw [Precedes, knownPrev, shows.prevHash, Parent]
    constructor
    · intro found
      split at found
      · rename_i other recorded
        split at found
        · cases found
        · rename_i visible
          obtain rfl := Option.some.inj found
          have visible : ¬ other = Hash.null ∧ view.contains other = true := by simpa using visible
          exact ⟨(contains other).mp visible.2, named.mp recorded⟩
      · cases found
    · rintro ⟨member, link⟩
      simp [named.mpr link, nonNull prev member, (contains prev).mpr member]
  · intro prev child member
    rw [Follows, shows.nextHashes prev (nonNull prev member), Edges.mem_nextOf, linked, Parent,
      and_iff_right member]
  · intro hash
    rw [shows.frontier.mem_beginList, begins_linksOf consistent drawn]
  · intro hash
    rw [shows.frontier.mem_endList, ends_linksOf consistent drawn]

variable (pictures : view.Pictures records shown)
include pictures

theorem Pictures.isBegin_iff : view.frontier.isBegin hash = true ↔ IsBegin records shown hash := by
  rw [← pictures.begins, Frontier.beginList, Std.TreeMap.mem_keys, Frontier.isBegin,
    Std.TreeMap.contains_iff_mem]

theorem Pictures.isEnd_iff : view.frontier.isEnd hash = true ↔ IsEnd records shown hash := by
  rw [← pictures.ends, Frontier.endList, Std.TreeSet.mem_toList, Frontier.isEnd,
    Std.TreeSet.contains_iff_mem]

theorem Pictures.leads_of_precedes {start : Hash}
    (path : Relation.ReflTransGen view.Precedes start hash) : Leads records shown hash start := by
  induction path with
  | refl => exact .refl
  | tail _ step ih => exact .head ((pictures.precedes _ _).mp step) ih

theorem Pictures.leads_of_follows {start : Hash} (visible : start ∈ shown)
    (path : Relation.TransGen view.Follows start hash) : Leads records shown start hash ∧ hash ∈ shown := by
  induction path with
  | single step =>
    have parent := (pictures.follows _ _ visible).mp step
    exact ⟨.single parent, parent.2.1⟩
  | tail _ step ih =>
    have parent := (pictures.follows _ _ ih.2).mp step
    exact ⟨.tail ih.1 parent, parent.2.1⟩

theorem Pictures.followed : ∀ prev ∈ shown, ∀ child, view.Follows prev child → child ∈ shown :=
  fun prev member child follows => ((pictures.follows prev child member).mp follows).2.1

theorem Pictures.acyclic (consistent : Consistent records) :
    ∀ hash, ¬ Relation.TransGen view.Precedes hash hash := by
  have turned : ∀ child prev, Relation.TransGen view.Precedes child prev →
      Relation.TransGen (Parent records shown) prev child := by
    intro child prev path
    induction path with
    | single step => exact .single ((pictures.precedes _ _).mp step)
    | tail _ step ih => exact .head ((pictures.precedes _ _).mp step) ih
  exact fun hash path => consistent.irrefl (turned hash hash path)

section Component

variable {addrs items : List Hash} {limit : Nat}
  (ran : view.component addrs limit = .ok items)
include ran

/-- What a component gathers leads to one of its addresses or descends from one. -/
theorem Pictures.component_joined (item : hash ∈ items) : ∃ addr ∈ addrs, addr ∈ shown ∧
    Joined records shown hash addr := by
  obtain ⟨-, addr, member, contained, found, around, listed⟩ := (component_collects ran).fresh hash item
  have visible := (pictures.contains addr).mp contained
  obtain ⟨ahead, walked, rfl⟩ := map_eq_ok.mp around
  have older := searchAhead_ahead (by simp) walked
  have newer : view.Sweep ∅ limit _ [addr] (view.searchAfter addr ∅ limit) := searchAfter_sweeps (by simp)
  refine ⟨addr, member, visible, ?_⟩
  simp only [List.cons_append, List.mem_cons, List.mem_append, or_assoc] at listed
  rcases listed with rfl | passed | ended | passed
  · exact Or.inl .refl
  · exact Or.inl (pictures.leads_of_precedes (older.reached hash (Or.inl passed)))
  · exact Or.inl (pictures.leads_of_precedes (older.reached hash (Or.inr ended)))
  · exact Or.inr (pictures.leads_of_follows visible (newer.descends passed)).1

theorem Pictures.component_drawn : ∀ hash ∈ items, hash ∈ shown := by
  intro hash item
  obtain ⟨addr, -, visible, joined⟩ := pictures.component_joined ran item
  exact joined.mem visible

/-- What is found from an address belongs to the component, which is full only if it holds all that
shows. -/
theorem Pictures.component_of_found (room : shown.card ≤ limit) (found : view.FoundFrom limit addrs hash)
    (visible : hash ∈ shown) : hash ∈ items := by
  have collects := component_collects ran
  by_cases full : items.length < limit
  · exact (collects.whole full hash found).resolve_left (by simp)
  · have length := collects.length_le
    have drawn : items.toFinset ⊆ shown := fun hash item =>
      pictures.component_drawn ran hash (List.mem_toFinset.mp item)
    have all : items.toFinset = shown := by
      apply Finset.eq_of_subset_of_card_le drawn
      rw [List.toFinset_card_of_nodup collects.nodup]
      omega
    rwa [← List.mem_toFinset, all]

/-- What leads to a visible address belongs to the component. -/
theorem Pictures.component_whole (consistent : Consistent records) (room : shown.card ≤ limit)
    {addr : Hash} (member : addr ∈ addrs) (visible : addr ∈ shown)
    (path : Leads records shown hash addr) : hash ∈ items := by
  obtain ⟨ahead, walked⟩ := searchAhead_ok addr ∅ limit (pictures.acyclic consistent)
  have older := searchAhead_ahead (by simp) walked
  have whole : ahead.truncated = false := searchAhead_whole (by simp) walked
    (fun _ _ precedes => ((pictures.precedes _ _).mp precedes).1) room
  have passed : hash = addr ∨ hash ∈ ahead.visited ∨ hash ∈ ahead.localEnds := by
    induction path using Relation.ReflTransGen.head_induction_on with
    | refl => exact Or.inl rfl
    | head step _ ih =>
      have precedes := (pictures.precedes _ _).mpr step
      rcases or_assoc.mpr ih with from_ | ended
      · exact Or.inr (by simpa using older.closed whole _ from_ _ precedes)
      · simp [Precedes, older.oldest _ ended] at precedes
  refine pictures.component_of_found ran room ⟨addr, member, (pictures.contains addr).mpr visible, _,
    map_eq_ok.mpr ⟨ahead, walked, rfl⟩, ?_⟩ (mem_of_leads path visible)
  simp only [List.cons_append, List.mem_cons, List.mem_append]
  tauto

end Component

end GraphView

end HashLog
