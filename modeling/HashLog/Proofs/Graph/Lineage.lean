import HashLog.Proofs.Store.Commits
import Mathlib.Data.Finset.Card
import Mathlib.Logic.Relation
/-!
Descent between records. The records of all replicas are drawn from one consistent set, in which
a hash has one record and predecessors never come back; each replica shows a finite part of it. What
an exchange has to get across is settled here: if one side sends along predecessor links whatever
lies above what the other holds or is sent (`Raises`), then all that it misses ends in an end that
the other does not have (`exists_end_beyond`).
-/
namespace HashLog

/-- A hash stands for one record, none for the null hash, and predecessors never come back. -/
structure Consistent (records : Set Record) : Prop where
  unique : ∀ r ∈ records, ∀ s ∈ records, r.hash = s.hash → r = s
  no_null : ∀ r ∈ records, r.hash ≠ Hash.null
  acyclic : ∀ hash, ¬ Relation.TransGen
    (fun prev child => ∃ r ∈ records, r.hash = child ∧ r.prev = prev) hash hash

/-- A record names a predecessor. -/
def Names (records : Set Record) (child prev : Hash) : Prop :=
  ∃ r ∈ records, r.hash = child ∧ r.prev = prev

/-- A shown record is the predecessor of another. -/
def Parent (records : Set Record) (shown : Finset Hash) (prev child : Hash) : Prop :=
  prev ∈ shown ∧ child ∈ shown ∧ Names records child prev

/-- A shown record is another one, or precedes it through shown records. -/
abbrev Leads (records : Set Record) (shown : Finset Hash) : Hash → Hash → Prop :=
  Relation.ReflTransGen (Parent records shown)

/-- No shown record precedes this one. -/
def IsBegin (records : Set Record) (shown : Finset Hash) (hash : Hash) : Prop :=
  hash ∈ shown ∧ ∀ prev, Names records hash prev → prev ∉ shown

/-- No shown record names this one. -/
def IsEnd (records : Set Record) (shown : Finset Hash) (hash : Hash) : Prop :=
  hash ∈ shown ∧ ∀ child ∈ shown, ¬ Names records child hash

/-- Whatever shows directly above a hash that the peer holds or is sent, the peer holds or is sent. -/
def Raises (records : Set Record) (shown peer : Finset Hash) (send : List Hash) : Prop :=
  ∀ child prev, child ∈ peer ∨ child ∈ send → Parent records shown prev child →
    prev ∈ peer ∨ prev ∈ send

variable {records : Set Record} {shown peer : Finset Hash} {send : List Hash} {hash prev other : Hash}

/-- Predecessors never come back if something falls along them. -/
theorem Consistent.of_rank (unique : ∀ r ∈ records, ∀ s ∈ records, r.hash = s.hash → r = s)
    (no_null : ∀ r ∈ records, r.hash ≠ Hash.null) (rank : Hash → Nat)
    (falls : ∀ r ∈ records, rank r.prev < rank r.hash) : Consistent records := by
  refine ⟨unique, no_null, ?_⟩
  intro hash path
  have rises : ∀ {prev child : Hash}, Relation.TransGen
      (fun prev child => ∃ r ∈ records, r.hash = child ∧ r.prev = prev) prev child →
        rank prev < rank child := by
    intro prev child path
    induction path with
    | single step =>
      obtain ⟨r, member, rfl, rfl⟩ := step
      exact falls r member
    | tail _ step ih =>
      obtain ⟨r, member, rfl, rfl⟩ := step
      exact Nat.lt_trans ih (falls r member)
  exact Nat.lt_irrefl _ (rises path)

theorem Consistent.names_unique (consistent : Consistent records) (first : Names records hash prev)
    (second : Names records hash other) : prev = other := by
  obtain ⟨r, rIn, rfl, rfl⟩ := first
  obtain ⟨s, sIn, same, rfl⟩ := second
  rw [consistent.unique s sIn r rIn same]

theorem Consistent.irrefl (consistent : Consistent records) :
    ¬ Relation.TransGen (Parent records shown) hash hash :=
  fun path => consistent.acyclic hash
    (Relation.TransGen.mono (fun _ _ (step : Parent records shown _ _) => step.2.2) _ _ path)

theorem exists_parent (member : hash ∈ shown) (inner : ¬ IsBegin records shown hash) :
    ∃ prev, Parent records shown prev hash := by
  by_contra none
  exact inner ⟨member, fun prev names above => none ⟨prev, above, member, names⟩⟩

theorem exists_child (member : hash ∈ shown) (inner : ¬ IsEnd records shown hash) :
    ∃ child, Parent records shown hash child := by
  by_contra none
  exact inner ⟨member, fun child below names => none ⟨child, member, below, names⟩⟩

theorem mem_of_leads (path : Leads records shown hash other) (member : other ∈ shown) : hash ∈ shown := by
  rcases Relation.ReflTransGen.cases_head path with rfl | ⟨_, step, -⟩
  · exact member
  · exact step.1

theorem mem_of_led (path : Leads records shown hash other) (member : hash ∈ shown) : other ∈ shown := by
  rcases Relation.ReflTransGen.cases_tail path with rfl | ⟨_, -, step⟩
  · exact member
  · exact step.2.1

/-- From every shown record the links lead to an end. -/
theorem exists_end_below (consistent : Consistent records) (member : hash ∈ shown) :
    ∃ last, Leads records shown hash last ∧ IsEnd records shown last := by
  classical
  -- the strict descendants of a child are among those of its parent, and the child is not
  let below (hash : Hash) : Finset Hash := shown.filter (Relation.TransGen (Parent records shown) hash)
  induction size : (below hash).card using Nat.strong_induction_on generalizing hash with
  | _ n ih =>
    by_cases ended : IsEnd records shown hash
    · exact ⟨hash, .refl, ended⟩
    · obtain ⟨child, step⟩ := exists_child member ended
      have childIn : child ∈ shown := step.2.1
      have fewer : below child ⊂ below hash := by
        rw [Finset.ssubset_iff_of_subset]
        · exact ⟨child, by simp [below, childIn, Relation.TransGen.single step],
            by simpa [below, childIn] using consistent.irrefl⟩
        · intro other found
          have := Finset.mem_filter.mp found
          exact Finset.mem_filter.mpr ⟨this.1, .head step this.2⟩
      obtain ⟨last, path, isEnd⟩ := ih _ (size ▸ Finset.card_lt_card fewer) childIn rfl
      exact ⟨last, .head step path, isEnd⟩

theorem Raises.of_leads (raises : Raises records shown peer send) (path : Leads records shown hash other)
    (reached : other ∈ peer ∨ other ∈ send) : hash ∈ peer ∨ hash ∈ send := by
  induction path with
  | refl => exact reached
  | tail _ step ih => exact ih (raises _ _ reached step)

/-- What the peer neither holds nor is sent leads to an end that it neither holds nor is sent. -/
theorem Raises.exists_end_beyond (raises : Raises records shown peer send)
    (consistent : Consistent records) (member : hash ∈ shown) (lacking : hash ∉ peer)
    (unsent : hash ∉ send) :
    ∃ last, Leads records shown hash last ∧ IsEnd records shown last ∧ last ∉ peer ∧ last ∉ send := by
  obtain ⟨last, path, isEnd⟩ := exists_end_below consistent member
  have beyond : ¬ (last ∈ peer ∨ last ∈ send) := fun reached =>
    (raises.of_leads path reached).elim lacking unsent
  exact ⟨last, path, isEnd, not_or.mp beyond⟩

/-- A set whose ends the peer holds, and which goes no further up than the peer where both do, holds
nothing that the peer does not. -/
theorem subset_of_frontier (consistent : Consistent records)
    (ends : ∀ last, IsEnd records shown last → last ∈ peer)
    (begins : ∀ first, IsBegin records peer first → first ∈ shown → IsBegin records shown first) :
    shown ⊆ peer := by
  have raises : Raises records shown peer [] := by
    rintro child prev (held | sent) ⟨prevIn, childIn, names⟩
    · by_contra beyond
      have lacking : prev ∉ peer := fun h => beyond (Or.inl h)
      have begin : IsBegin records peer child :=
        ⟨held, fun other named => consistent.names_unique names named ▸ lacking⟩
      exact (begins child begin childIn).2 prev names prevIn
    · cases sent
  intro hash member
  by_contra lacking
  obtain ⟨last, -, isEnd, beyond, -⟩ :=
    raises.exists_end_beyond consistent member lacking (List.not_mem_nil)
  exact beyond (ends last isEnd)

theorem Leads.mono {more : Finset Hash} (subset : shown ⊆ more) (path : Leads records shown hash other) :
    Leads records more hash other :=
  Relation.ReflTransGen.mono (fun _ _ (step : Parent records shown _ _) =>
    ⟨subset step.1, subset step.2.1, step.2.2⟩) _ _ path

/-! ## Records joined by a path -/

/-- One of two shown records leads to the other. -/
def Joined (records : Set Record) (shown : Finset Hash) (hash other : Hash) : Prop :=
  Leads records shown hash other ∨ Leads records shown other hash

theorem Joined.refl (hash : Hash) : Joined records shown hash hash := Or.inl .refl

theorem Joined.symm (joined : Joined records shown hash other) : Joined records shown other hash :=
  Or.symm joined

theorem Joined.mono {more : Finset Hash} (subset : shown ⊆ more) (joined : Joined records shown hash other) :
    Joined records more hash other :=
  joined.imp (Leads.mono subset) (Leads.mono subset)

theorem Joined.mem (joined : Joined records shown hash other) (member : other ∈ shown) : hash ∈ shown :=
  joined.elim (fun up => mem_of_leads up member) fun down => mem_of_led down member

/-! ## Records drawn from a consistent set -/

variable {batch : List Record}

theorem mem_linksOf_iff (consistent : Consistent records) (drawn : ∀ r ∈ batch, r ∈ records) :
    (hash, prev) ∈ linksOf batch ↔ hash ∈ hashesIn batch ∧ Names records hash prev := by
  rw [mem_linksOf, mem_hashesIn]
  constructor
  · rintro ⟨r, member, rfl, rfl⟩
    exact ⟨⟨r, member, rfl⟩, r, drawn r member, rfl, rfl⟩
  · rintro ⟨⟨r, member, rfl⟩, s, sIn, same, rfl⟩
    exact ⟨r, member, rfl, by rw [consistent.unique r (drawn r member) s sIn same.symm]⟩

end HashLog
