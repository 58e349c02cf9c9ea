import HashLog.Proofs.Graph.Pictures
/-!
What a walk passes if the limit does not cut it: exactly the records to which there is a way from its
start that meets no terminal (`searchAhead_iff`, `searchAfter_iff`). In one direction a walk passes
only what it came to so; in the other, what it passes is closed under going on. A component therefore
gathers exactly what leads to one of its addresses or descends from one (`mem_component_iff`).
-/
namespace HashLog

namespace GraphView

variable {view : GraphView} {terminals seen : HashSet} {budget limit : Nat}
  {start next hash : Hash} {walk : Walk}

/-- A step toward older records, to one that is no terminal. -/
def Back (view : GraphView) (terminals : HashSet) (child prev : Hash) : Prop :=
  view.Precedes child prev ∧ prev ∉ terminals

/-! ## Toward older records -/

private theorem aheadFrom_back (precedes : view.Precedes start next)
    (ran : view.aheadFrom terminals budget seen next = .ok walk)
    (found : hash ∈ walk.visited ∨ hash ∈ walk.localEnds ∧ hash ∉ terminals) :
    Relation.TransGen (view.Back terminals) start hash := by
  induction budget generalizing seen start next walk with
  | zero =>
    rcases aheadFrom_cases ran with ⟨-, rfl⟩ | ⟨-, rfl⟩ | ⟨-, -, rfl⟩ | ⟨_, _, _, _, _, none, _⟩
    · obtain ⟨rfl, beyond⟩ : hash = next ∧ hash ∉ terminals := by simpa [Walk.endAt] using found
      exact .single ⟨precedes, beyond⟩
    · simp [Walk.empty] at found
    · simp [Walk.cut] at found
    · cases none
  | succ budget ih =>
    rcases aheadFrom_cases ran with ⟨-, rfl⟩ | ⟨-, rfl⟩ | ⟨-, -, rfl⟩ |
      ⟨further, fewer, later, known, -, left, rest, rfl, outside⟩
    · obtain ⟨rfl, beyond⟩ : hash = next ∧ hash ∉ terminals := by simpa [Walk.endAt] using found
      exact .single ⟨precedes, beyond⟩
    · simp [Walk.empty] at found
    · simp [Walk.cut] at found
    · obtain rfl : budget = fewer := Nat.succ.inj left
      have first : view.Back terminals start next := ⟨precedes, outside⟩
      rcases found with passed | ended
      · rcases List.mem_cons.mp passed with rfl | passed
        · exact .single first
        · exact .head first (ih known rest (Or.inl passed))
      · exact .head first (ih known rest (Or.inr ended))

/-- A walk toward older records that is not cut passes, or ends at, exactly what it can come to without
meeting a terminal. -/
theorem searchAhead_iff (outside : start ∉ terminals)
    (ran : view.searchAhead start terminals limit = .ok walk) (uncut : walk.truncated = false) :
    hash ∈ walk.visited ∨ hash ∈ walk.localEnds ∧ hash ≠ start ∧ hash ∉ terminals ↔
      Relation.TransGen (view.Back terminals) start hash := by
  have older := searchAhead_ahead outside ran
  constructor
  · intro found
    rcases searchAhead_cases outside ran with ⟨-, rfl⟩ | ⟨next, known, walked⟩
    · rcases found with passed | ⟨ended, differs, -⟩
      · cases passed
      · exact absurd (List.mem_singleton.mp ended) differs
    · exact aheadFrom_back known walked (found.imp_right fun ended => ⟨ended.1, ended.2.2⟩)
  · intro path
    have passes : ∀ child prev, child = start ∨ child ∈ walk.visited → view.Back terminals child prev →
        prev ∈ walk.visited ∨ prev ∈ walk.localEnds ∧ prev ∉ terminals := fun child prev from_ back =>
      (older.closed uncut child from_ prev back.1).imp_right fun ended =>
        ⟨ended.resolve_right back.2, back.2⟩
    have goes : hash ∈ walk.visited ∨ hash ∈ walk.localEnds ∧ hash ∉ terminals := by
      induction path with
      | single back => exact passes _ _ (Or.inl rfl) back
      | tail _ back ih =>
        refine passes _ _ (Or.inr (ih.resolve_right fun ended => ?_)) back
        exact nomatch (older.oldest _ ended.1).symm.trans back.1
    refine goes.imp_right fun ended => ⟨ended.1, ?_, ended.2⟩
    rintro rfl
    -- the start of a way has a predecessor, and a record at which a walk ends has none
    obtain ⟨prev, back, -⟩ := Relation.TransGen.head'_iff.mp path
    exact nomatch (older.oldest _ ended.1).symm.trans back.1

/-! ## Toward newer records -/

section SearchAfter

variable {shown : Finset Hash} (visible : start ∈ shown)
  (closed : ∀ prev ∈ shown, ∀ child, view.Follows prev child → child ∈ shown)
  (room : shown.card ≤ limit)
include visible closed room

/-- There is no more to reach than what is shown. -/
theorem ncard_reach_le : (view.reach terminals start).ncard ≤ limit := by
  have inside : view.reach terminals start ⊆ shown := by
    rintro hash ⟨-, path⟩
    induction path with
    | single onward => exact closed start visible _ onward.1
    | tail _ onward ih => exact closed _ ih _ onward.1
  have fewer := Set.ncard_le_ncard inside shown.finite_toSet
  rw [Set.ncard_coe_finset] at fewer
  exact Nat.le_trans fewer room

/-- A walk toward newer records that the limit does not cut passes exactly what it can come to without
meeting a terminal, and never its start. -/
theorem searchAfter_iff (outside : start ∉ terminals) :
    hash ∈ (view.searchAfter start terminals limit).visited ↔
    hash ≠ start ∧ Relation.TransGen (view.Onward terminals) start hash :=
  (searchAfter_whole outside (ncard_reach_le visible closed room)).2.1 hash

end SearchAfter

/-! ## Components -/

section Component

variable {records : Set Record} {shown : Finset Hash} {addrs items : List Hash}
  (pictures : view.Pictures records shown) (consistent : Consistent records) (room : shown.card ≤ limit)
include pictures room consistent

/-- A component that the limit does not cut holds exactly what leads to one of its addresses or
descends from one. -/
theorem Pictures.mem_component_iff (ran : view.component addrs limit = .ok items) : hash ∈ items ↔
    ∃ addr ∈ addrs, addr ∈ shown ∧ Joined records shown hash addr := by
  refine ⟨pictures.component_joined ran, ?_⟩
  rintro ⟨addr, member, visible, up | down⟩
  · exact pictures.component_whole ran consistent room member visible up
  · by_cases same : hash = addr
    · exact same ▸ pictures.component_whole ran consistent room member visible .refl
    obtain ⟨ahead, walked⟩ := searchAhead_ok addr ∅ limit (pictures.acyclic consistent)
    have path : Relation.TransGen (view.Onward ∅) addr hash := by
      have strict := (Relation.reflTransGen_iff_eq_or_transGen.mp down).resolve_left same
      refine Relation.TransGen.mono (fun prev child step => ⟨?_, by simp⟩) _ _ strict
      exact (pictures.follows prev child step.1).mpr step
    have passed := (searchAfter_iff visible pictures.followed room (by simp)).mpr ⟨same, path⟩
    refine pictures.component_of_found ran room ⟨addr, member, (pictures.contains addr).mpr visible, _,
      map_eq_ok.mpr ⟨ahead, walked, rfl⟩, ?_⟩ (mem_of_led down visible)
    exact List.mem_append_right _ passed

end Component

end GraphView

end HashLog
