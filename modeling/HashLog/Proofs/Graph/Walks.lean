import HashLog.Graph.Walk
import HashLog.Proofs.Graph.Edges
import Mathlib.Data.Finset.Card
import Mathlib.Logic.Relation
/-!
What walks over a view find, whatever the view. A walk toward older records that is not cut leaves
nothing out between its start and the terminals; a walk toward newer records takes up, at every turn,
children of one record that are new. Either begins with the record next to its start, if the limit
allows it one. A component that is not full holds every record that its addresses descend from.
-/
namespace HashLog

theorem map_eq_ok {ε α β : Type} {f : α → β} {result : Except ε α} {b : β} :
    result.map f = .ok b ↔ ∃ a, result = .ok a ∧ f a = b := by
  cases result <;> simp [Except.map]

theorem bind_eq_ok {ε α β : Type} {result : Except ε α} {f : α → Except ε β} {b : β} :
    (result >>= f) = .ok b ↔ ∃ a, result = .ok a ∧ f a = .ok b := by
  cases result <;> simp [bind, Except.bind]

theorem mapError_eq_ok {ε ε' α : Type} {f : ε → ε'} {result : Except ε α} {a : α} :
    result.mapError f = .ok a ↔ result = .ok a := by
  cases result <;> simp [Except.mapError]

/-- A place in two lists is one in the first of them, or one behind it in the second. -/
theorem split_append {α : Type} {item : α} {front back before later : List α}
    (split : front ++ back = before ++ item :: later) :
    (∃ between, front = before ++ item :: between) ∨
      ∃ between, before = front ++ between ∧ back = between ++ item :: later := by
  rcases List.append_eq_append_iff.mp split with ⟨between, rfl, rest⟩ | ⟨between, rfl, rest⟩
  · exact Or.inr ⟨between, rfl, rest⟩
  · cases between with
    | nil => exact Or.inr ⟨[], by simp, rest.symm⟩
    | cons first between =>
      obtain ⟨rfl, -⟩ := List.cons.inj rest
      exact Or.inl ⟨between, rfl⟩

namespace GraphView

variable {view : GraphView} {terminals seen : HashSet} {budget limit : Nat} {start next hash : Hash}
  {walk : Walk}

/-- A record has a predecessor that the view shows. -/
def Precedes (view : GraphView) (child prev : Hash) : Prop := view.knownPrev child = some prev

/-! ## Toward older records -/

/-- What a walk toward older records passes from `start`, which is no terminal. -/
structure Ahead (view : GraphView) (terminals : HashSet) (start : Hash) (walk : Walk) : Prop where
  reached : ∀ hash, hash ∈ walk.visited ∨ hash ∈ walk.localEnds →
    Relation.ReflTransGen view.Precedes start hash
  oldest : ∀ hash ∈ walk.localEnds, view.knownPrev hash = none
  closed : walk.truncated = false → ∀ hash, hash = start ∨ hash ∈ walk.visited →
    ∀ prev, view.Precedes hash prev →
      prev ∈ walk.visited ∨ prev ∈ walk.localEnds ∨ prev ∈ terminals

private theorem ahead_endAt (precedes : view.Precedes start next) (oldest : view.knownPrev next = none) :
    view.Ahead terminals start (.endAt next) := by
  refine ⟨?_, by simpa [Walk.endAt] using oldest, ?_⟩
  · intro hash found
    obtain rfl : hash = next := by simpa [Walk.endAt] using found
    exact .single precedes
  · rintro - hash (rfl | passed) prev precedes'
    · obtain rfl : next = prev := Option.some.inj (precedes.symm.trans precedes')
      simp [Walk.endAt]
    · simp [Walk.endAt] at passed

private theorem ahead_empty (precedes : view.Precedes start next) (terminal : next ∈ terminals) :
    view.Ahead terminals start .empty := by
  refine ⟨by simp [Walk.empty], by simp [Walk.empty], ?_⟩
  rintro - hash (rfl | passed) prev precedes'
  · obtain rfl : next = prev := Option.some.inj (precedes.symm.trans precedes')
    exact Or.inr (Or.inr terminal)
  · simp [Walk.empty] at passed

private theorem ahead_cut : view.Ahead terminals start .cut :=
  ⟨by simp [Walk.cut], by simp [Walk.cut], by simp [Walk.cut]⟩

private theorem Ahead.after (later : view.Ahead terminals next walk)
    (precedes : view.Precedes start next) : view.Ahead terminals start (walk.after [next]) := by
  refine ⟨?_, later.oldest, ?_⟩
  · rintro hash (passed | ended)
    · rcases List.mem_cons.mp passed with rfl | passed
      · exact .single precedes
      · exact .head precedes (later.reached hash (Or.inl passed))
    · exact .head precedes (later.reached hash (Or.inr ended))
  · intro whole hash from_ prev precedes'
    have passed : hash = start ∨ hash = next ∨ hash ∈ walk.visited := by
      simpa [Walk.after] using from_
    rcases passed with rfl | further
    · obtain rfl : next = prev := Option.some.inj (precedes.symm.trans precedes')
      exact Or.inl List.mem_cons_self
    · exact (later.closed whole hash further prev precedes').imp (List.mem_cons_of_mem _) id

/-- The next record ends the log, is a terminal or lies beyond the limit, or the walk passes it. -/
theorem aheadFrom_cases (ran : view.aheadFrom terminals budget seen next = .ok walk) :
    (view.knownPrev next = none ∧ walk = .endAt next) ∨ (next ∈ terminals ∧ walk = .empty) ∨
      (next ∉ seen ∧ budget = 0 ∧ walk = .cut) ∨
      ∃ further fewer later, view.Precedes next further ∧ next ∉ seen ∧ budget = fewer + 1 ∧
        view.aheadFrom terminals fewer (seen.insert next) further = .ok later ∧
        walk = later.after [next] ∧ next ∉ terminals := by
  unfold aheadFrom at ran
  split at ran
  · rename_i oldest
    exact Or.inl ⟨oldest, (Except.ok.inj ran).symm⟩
  · rename_i further known
    split at ran
    · rename_i terminal
      exact Or.inr (Or.inl ⟨by simpa using terminal, (Except.ok.inj ran).symm⟩)
    · rename_i outside
      split at ran
      · cases ran
      · rename_i unseen
        have new : next ∉ seen := by simpa using unseen
        cases budget with
        | zero => exact Or.inr (Or.inr (Or.inl ⟨new, rfl, (Except.ok.inj ran).symm⟩))
        | succ fewer =>
          obtain ⟨later, rest, rfl⟩ := map_eq_ok.mp ran
          exact Or.inr (Or.inr (Or.inr
            ⟨further, fewer, later, known, new, rfl, rest, rfl, by simpa using outside⟩))

private theorem aheadFrom_ahead (precedes : view.Precedes start next)
    (ran : view.aheadFrom terminals budget seen next = .ok walk) :
    view.Ahead terminals start walk := by
  induction budget generalizing seen start next walk with
  | zero =>
    rcases aheadFrom_cases ran with ⟨oldest, rfl⟩ | ⟨terminal, rfl⟩ | ⟨-, -, rfl⟩ |
      ⟨_, _, _, _, _, none, _⟩
    · exact ahead_endAt precedes oldest
    · exact ahead_empty precedes terminal
    · exact ahead_cut
    · cases none
  | succ budget ih =>
    rcases aheadFrom_cases ran with ⟨oldest, rfl⟩ | ⟨terminal, rfl⟩ | ⟨-, -, rfl⟩ |
      ⟨further, fewer, later, known, -, left, rest, rfl, -⟩
    · exact ahead_endAt precedes oldest
    · exact ahead_empty precedes terminal
    · exact ahead_cut
    · obtain rfl : budget = fewer := Nat.succ.inj left
      exact (ih known rest).after precedes

/-- A walk that has come along predecessors meets no record again where these never come back. -/
private theorem aheadFrom_ok (acyclic : ∀ hash, ¬ Relation.TransGen view.Precedes hash hash)
    (passed : ∀ hash ∈ seen, Relation.TransGen view.Precedes hash next) :
    ∃ walk, view.aheadFrom terminals budget seen next = .ok walk := by
  induction budget generalizing seen next with
  | zero =>
    have new : next ∉ seen := fun member => acyclic next (passed next member)
    unfold aheadFrom
    split
    · exact ⟨_, rfl⟩
    · split
      · exact ⟨_, rfl⟩
      · rw [if_neg (by simpa using new)]
        exact ⟨_, rfl⟩
  | succ budget ih =>
    have new : next ∉ seen := fun member => acyclic next (passed next member)
    unfold aheadFrom
    split
    · exact ⟨_, rfl⟩
    · rename_i further known
      split
      · exact ⟨_, rfl⟩
      · have longer : ∀ hash ∈ seen.insert next, Relation.TransGen view.Precedes hash further := by
          intro hash member
          rcases Std.TreeSet.mem_insert.mp member with same | old
          · rw [← Std.LawfulEqCmp.eq_of_compare same]
            exact .single known
          · exact .tail (passed hash old) known
        obtain ⟨walk, rest⟩ := ih longer
        rw [if_neg (by simpa using new)]
        exact ⟨_, by simp only [rest, Except.map]; rfl⟩

/-- A walk is cut only if the limit is below the number of records that it can pass. -/
private theorem aheadFrom_whole {shown : Finset Hash} (member : next ∈ shown)
    (closed : ∀ hash prev, view.Precedes hash prev → prev ∈ shown)
    (room : (shown.filter (· ∉ seen)).card ≤ budget)
    (ran : view.aheadFrom terminals budget seen next = .ok walk) : walk.truncated = false := by
  induction budget generalizing seen next walk with
  | zero =>
    rcases aheadFrom_cases ran with ⟨-, rfl⟩ | ⟨-, rfl⟩ | ⟨new, -, rfl⟩ | ⟨_, _, _, _, _, none, _⟩
    · rfl
    · rfl
    · have left : next ∈ shown.filter (· ∉ seen) := Finset.mem_filter.mpr ⟨member, new⟩
      have := Finset.card_pos.mpr ⟨next, left⟩
      omega
    · cases none
  | succ budget ih =>
    rcases aheadFrom_cases ran with ⟨-, rfl⟩ | ⟨-, rfl⟩ | ⟨-, none, -⟩ |
      ⟨further, fewer, later, known, new, left, rest, rfl, -⟩
    · rfl
    · rfl
    · cases none
    · obtain rfl : budget = fewer := Nat.succ.inj left
      suffices room : (shown.filter (· ∉ seen.insert next)).card ≤ budget from
        show later.truncated = false from ih (closed next further known) room rest
      have fewer : shown.filter (· ∉ seen.insert next) ⊂ shown.filter (· ∉ seen) := by
        rw [Finset.ssubset_iff_of_subset]
        · exact ⟨next, by simp [member, new], by simp⟩
        · intro hash found
          have := Finset.mem_filter.mp found
          exact Finset.mem_filter.mpr ⟨this.1, fun old => this.2 (by simp [old])⟩
      have := Finset.card_lt_card fewer
      omega

private theorem aheadFrom_first (outside : next ∉ terminals) (room : 0 < budget)
    (ran : view.aheadFrom terminals budget seen next = .ok walk) :
    (∃ rest, walk.visited = next :: rest) ∨ (walk.visited = [] ∧ walk.localEnds = [next]) := by
  rcases aheadFrom_cases ran with ⟨-, rfl⟩ | ⟨terminal, -⟩ | ⟨-, rfl, -⟩ |
    ⟨_, _, later, -, -, -, -, rfl, -⟩
  · exact Or.inr ⟨rfl, rfl⟩
  · exact absurd terminal outside
  · exact absurd room (Nat.lt_irrefl 0)
  · exact Or.inl ⟨later.visited, rfl⟩

theorem searchAhead_ok (start : Hash) (terminals : HashSet) (limit : Nat)
    (acyclic : ∀ hash, ¬ Relation.TransGen view.Precedes hash hash) :
    ∃ walk, view.searchAhead start terminals limit = .ok walk := by
  unfold searchAhead
  split
  · exact ⟨_, rfl⟩
  · split
    · exact ⟨_, rfl⟩
    · rename_i next known
      apply aheadFrom_ok acyclic
      intro hash member
      obtain rfl : hash = start := by simpa using member
      exact .single known

section SearchAhead

variable (outside : start ∉ terminals) (ran : view.searchAhead start terminals limit = .ok walk)
include outside ran

/-- A record without a known predecessor ends the walk where it began; otherwise it goes on. -/
theorem searchAhead_cases : (view.knownPrev start = none ∧ walk = .endAt start) ∨
    ∃ next, view.Precedes start next ∧
      view.aheadFrom terminals limit (HashSet.ofList [start]) next = .ok walk := by
  unfold searchAhead at ran
  rw [if_neg (by simpa using outside)] at ran
  split at ran
  · rename_i oldest
    exact Or.inl ⟨oldest, (Except.ok.inj ran).symm⟩
  · rename_i next known
    exact Or.inr ⟨next, known, ran⟩

theorem searchAhead_ahead : view.Ahead terminals start walk := by
  rcases searchAhead_cases outside ran with ⟨oldest, rfl⟩ | ⟨next, known, ran⟩
  · refine ⟨?_, by simpa [Walk.endAt] using oldest, ?_⟩
    · intro hash found
      obtain rfl : hash = start := by simpa [Walk.endAt] using found
      exact .refl
    · rintro - hash (rfl | passed) prev precedes
      · simp [Precedes, oldest] at precedes
      · simp [Walk.endAt] at passed
  · exact aheadFrom_ahead known ran

theorem searchAhead_whole {shown : Finset Hash}
    (closed : ∀ hash prev, view.Precedes hash prev → prev ∈ shown) (room : shown.card ≤ limit) :
    walk.truncated = false := by
  rcases searchAhead_cases outside ran with ⟨-, rfl⟩ | ⟨next, known, ran⟩
  · rfl
  · exact aheadFrom_whole (closed start next known) closed
      (Nat.le_trans (Finset.card_filter_le _ _) room) ran

theorem searchAhead_first (precedes : view.Precedes start next) (beyond : next ∉ terminals)
    (room : 0 < limit) :
    (∃ rest, walk.visited = next :: rest) ∨ (walk.visited = [] ∧ walk.localEnds = [next]) := by
  rcases searchAhead_cases outside ran with ⟨oldest, -⟩ | ⟨other, known, ran⟩
  · simp [Precedes, oldest] at precedes
  · obtain rfl : next = other := Option.some.inj (precedes.symm.trans known)
    exact aheadFrom_first beyond room ran

end SearchAhead

/-! ## Toward newer records -/

/-- A record names another one. -/
def Follows (view : GraphView) (prev child : Hash) : Prop := child ∈ view.nextHashes prev

theorem mem_insert_iff {first : Hash} :
    hash ∈ seen.insert first ↔ hash = first ∨ hash ∈ seen := by
  rw [Std.TreeSet.mem_insert, Std.LawfulEqCmp.compare_eq_iff_eq, eq_comm]

/-- What is taken up of the children of a record. -/
structure Expansion.Takes (e : Expansion) (terminals : HashSet) (budget : Nat) (seen : HashSet)
    (children : List Hash) : Prop where
  nodup : e.fresh.Nodup
  fresh : ∀ child ∈ e.fresh, child ∈ children ∧ child ∉ terminals ∧ child ∉ seen
  used : e.fresh.length + e.budget = budget
  marked : e.truncated = false → ∀ hash, hash ∈ e.seen ↔ hash ∈ seen ∨ hash ∈ e.fresh
  whole : e.truncated = false → ∀ child ∈ children, child ∈ terminals ∨ child ∈ seen ∨ child ∈ e.fresh
  cut : e.truncated = true → e.budget = 0 ∧
    ∃ child ∈ children, child ∉ terminals ∧ child ∉ seen ∧ child ∉ e.fresh

theorem expand_takes {children : List Hash} :
    (expand terminals budget seen children).Takes terminals budget seen children := by
  induction children generalizing budget seen with
  | nil => constructor <;> simp [expand]
  | cons child rest ih =>
    unfold expand
    by_cases skipped : child ∈ terminals ∨ child ∈ seen
    · rw [if_pos (by simpa using skipped)]
      have others : (expand terminals budget seen rest).Takes terminals budget seen rest := ih
      refine ⟨others.nodup, ?_, others.used, others.marked, ?_, ?_⟩
      · exact fun other member => (others.fresh other member).imp_left (List.mem_cons_of_mem _)
      · intro all other member
        rcases List.mem_cons.mp member with rfl | later
        · exact skipped.imp_right Or.inl
        · exact others.whole all other later
      · intro cut
        obtain ⟨spent, other, member, left⟩ := others.cut cut
        exact ⟨spent, other, List.mem_cons_of_mem _ member, left⟩
    · rw [if_neg (by simpa using skipped)]
      obtain ⟨outside, new⟩ := not_or.mp skipped
      cases budget with
      | zero =>
        refine ⟨List.nodup_nil, by simp, rfl, nofun, nofun, ?_⟩
        exact fun _ => ⟨rfl, child, List.mem_cons_self, outside, new, by simp⟩
      | succ budget =>
        have others : (expand terminals budget (seen.insert child) rest).Takes terminals budget
          (seen.insert child) rest := ih
        have apart : child ∉ (expand terminals budget (seen.insert child) rest).fresh := fun member =>
          (others.fresh child member).2.2 (by simp)
        refine ⟨List.nodup_cons.mpr ⟨apart, others.nodup⟩, ?_, ?_, ?_, ?_, ?_⟩
        · intro other member
          rcases List.mem_cons.mp member with rfl | later
          · exact ⟨List.mem_cons_self, outside, new⟩
          · obtain ⟨listed, beyond, unseen⟩ := others.fresh other later
            exact ⟨List.mem_cons_of_mem _ listed, beyond, fun old => unseen (by simp [old])⟩
        · have := others.used
          simp only [List.length_cons]
          omega
        · intro all other
          rw [others.marked all, mem_insert_iff, List.mem_cons, or_assoc, or_left_comm]
        · intro all other member
          rcases List.mem_cons.mp member with rfl | later
          · exact Or.inr (Or.inr List.mem_cons_self)
          · have met := others.whole all other later
            rw [mem_insert_iff] at met
            rcases met with terminal | (rfl | old) | taken
            · exact Or.inl terminal
            · exact Or.inr (Or.inr List.mem_cons_self)
            · exact Or.inr (Or.inl old)
            · exact Or.inr (Or.inr (List.mem_cons_of_mem _ taken))
        · intro cut
          obtain ⟨spent, other, member, beyond, unseen, left⟩ := others.cut cut
          rw [mem_insert_iff, not_or] at unseen
          refine ⟨spent, other, List.mem_cons_of_mem _ member, beyond, unseen.2, ?_⟩
          exact fun taken => (List.mem_cons.mp taken).elim unseen.1 left

/-- One turn of a walk toward newer records: a record without children ends it, and from any other one
the children that are taken up are passed and go on the stack. -/
theorem afterFrom_cases (view : GraphView) (terminals : HashSet) (fuel budget : Nat)
    (seen : HashSet) (current : Hash) (stack : List Hash) :
    (view.nextHashes current = [] ∧ view.afterFrom terminals (fuel + 1) budget seen (current :: stack) =
      { view.afterFrom terminals fuel budget seen stack with
        localEnds := current :: (view.afterFrom terminals fuel budget seen stack).localEnds }) ∨
    view.nextHashes current ≠ [] ∧ ∃ e : Expansion,
      e.Takes terminals budget seen (view.nextHashes current) ∧
      view.afterFrom terminals (fuel + 1) budget seen (current :: stack) =
        (if e.truncated then Walk.cut
          else view.afterFrom terminals fuel e.budget e.seen (e.fresh.reverse ++ stack)).after e.fresh := by
  cases children : view.nextHashes current with
  | nil =>
    refine Or.inl ⟨rfl, ?_⟩
    rw [afterFrom, children]
  | cons child rest =>
    refine Or.inr ⟨List.cons_ne_nil _ _, _, expand_takes, ?_⟩
    rw [afterFrom, children]
    dsimp only
    split <;> rfl

/-- The first child is passed first if it is no terminal and not the start itself. -/
theorem searchAfter_first {rest : List Hash} (outside : start ∉ terminals)
    (children : view.nextHashes start = next :: rest) (beyond : next ∉ terminals)
    (differs : next ≠ start) (room : 0 < limit) :
    ∃ later, (view.searchAfter start terminals limit).visited = next :: later := by
  obtain ⟨limit, rfl⟩ := Nat.exists_eq_succ_of_ne_zero (Nat.ne_of_gt room)
  have unseen : (HashSet.ofList [start]).contains next = false := by
    rw [Bool.eq_false_iff, ne_eq, Std.TreeSet.contains_iff_mem]
    simpa using differs
  have other : terminals.contains next = false := by
    rw [Bool.eq_false_iff, ne_eq, Std.TreeSet.contains_iff_mem]
    exact beyond
  unfold searchAfter
  rw [if_neg (by simpa using outside)]
  unfold afterFrom
  simp only [children, expand, other, unseen, Bool.or_self, Bool.false_eq_true, ↓reduceIte]
  split <;> exact ⟨_, rfl⟩

/-! ## Components -/

/-- What gathering within `room` makes of the hashes found. -/
structure Gathered.From (g : Gathered) (room : Nat) (seen : HashSet) (found : List Hash) : Prop where
  nodup : g.items.Nodup
  fresh : ∀ hash ∈ g.items, hash ∈ found ∧ hash ∉ seen
  used : g.items.length + g.room = room
  marked : ∀ hash, hash ∈ g.seen ↔ hash ∈ seen ∨ hash ∈ g.items
  full : g.full = true → g.items.length = room
  whole : g.full = false → ∀ hash ∈ found, hash ∈ seen ∨ hash ∈ g.items

theorem gather_from {room : Nat} {found : List Hash} :
    (gather room seen found).From room seen found := by
  induction found generalizing room seen with
  | nil => constructor <;> simp [gather]
  | cons first rest ih =>
    cases room with
    | zero => constructor <;> simp [gather]
    | succ room =>
      unfold gather
      by_cases old : first ∈ seen
      · rw [if_pos (by simpa using old)]
        have others : (gather (room + 1) seen rest).From (room + 1) seen rest := ih
        obtain ⟨nodup, fresh, used, marked, full, whole⟩ := others
        refine ⟨nodup, ?_, used, marked, full, ?_⟩
        · intro hash member
          exact ⟨List.mem_cons_of_mem _ (fresh hash member).1, (fresh hash member).2⟩
        · intro all hash member
          rcases List.mem_cons.mp member with rfl | later
          · exact Or.inl old
          · exact whole all hash later
      · rw [if_neg (by simpa using old)]
        have others : (gather room (seen.insert first) rest).From room (seen.insert first) rest := ih
        obtain ⟨nodup, fresh, used, marked, full, whole⟩ := others
        have apart : first ∉ (gather room (seen.insert first) rest).items := fun member =>
          (fresh first member).2 (by simp)
        refine ⟨List.nodup_cons.mpr ⟨apart, nodup⟩, ?_, ?_, ?_, ?_, ?_⟩
        · intro hash member
          rcases List.mem_cons.mp member with rfl | later
          · exact ⟨List.mem_cons_self, old⟩
          · exact ⟨List.mem_cons_of_mem _ (fresh hash later).1,
              fun before => (fresh hash later).2 (by simp [before])⟩
        · simp only [List.length_cons]
          omega
        · intro hash
          rw [marked, mem_insert_iff, List.mem_cons, @or_comm (hash = first), or_assoc]
        · intro all
          exact congrArg (· + 1) (full all)
        · intro all hash member
          rcases List.mem_cons.mp member with rfl | later
          · exact Or.inr List.mem_cons_self
          · have met := whole all hash later
            rw [mem_insert_iff] at met
            rcases met with (rfl | before) | item
            · exact Or.inr List.mem_cons_self
            · exact Or.inl before
            · exact Or.inr (List.mem_cons_of_mem _ item)

/-- A hash is found from one of the addresses that the view shows. -/
def FoundFrom (view : GraphView) (limit : Nat) (addrs : List Hash) (hash : Hash) : Prop :=
  ∃ addr ∈ addrs, view.contains addr = true ∧ ∃ found, view.around addr limit = .ok found ∧ hash ∈ found

/-- What a component gathers from the addresses beside what was seen before. -/
structure Collects (view : GraphView) (limit room : Nat) (seen : HashSet) (addrs items : List Hash) :
    Prop where
  nodup : items.Nodup
  fresh : ∀ hash ∈ items, hash ∉ seen ∧ view.FoundFrom limit addrs hash
  length_le : items.length ≤ room
  whole : items.length < room → ∀ hash, view.FoundFrom limit addrs hash → hash ∈ seen ∨ hash ∈ items

theorem foundFrom_cons {addr : Hash} {rest : List Hash} : view.FoundFrom limit (addr :: rest) hash ↔
    (view.contains addr = true ∧ ∃ found, view.around addr limit = .ok found ∧ hash ∈ found) ∨
      view.FoundFrom limit rest hash := by
  simp [FoundFrom]

section Collects

variable {room : Nat} {addr : Hash} {rest items later around : List Hash} {g : Gathered}

/-- Nothing is found from an address that does not show. -/
private theorem Collects.of_hidden (hidden : ¬ view.contains addr = true)
    (others : view.Collects limit room seen rest items) :
    view.Collects limit room seen (addr :: rest) items := by
  have same : ∀ hash, view.FoundFrom limit (addr :: rest) hash ↔ view.FoundFrom limit rest hash :=
    fun hash => foundFrom_cons.trans (or_iff_right fun shown => hidden shown.1)
  refine ⟨others.nodup, ?_, others.length_le, ?_⟩
  · intro hash item
    exact (others.fresh hash item).imp_right (same hash).mpr
  · intro less hash found
    exact others.whole less hash ((same hash).mp found)

variable (visible : view.contains addr = true) (found : view.around addr limit = .ok around)
  (gathered : g.From room seen around)
include visible found gathered

private theorem foundFrom_of_gathered (item : hash ∈ g.items) :
    hash ∉ seen ∧ view.FoundFrom limit (addr :: rest) hash :=
  ⟨(gathered.fresh hash item).2,
    foundFrom_cons.mpr (Or.inl ⟨visible, around, found, (gathered.fresh hash item).1⟩)⟩

/-- What is found from the first address may use up all room. -/
private theorem Collects.of_full (full : g.full = true) :
    view.Collects limit room seen (addr :: rest) g.items := by
  have length := gathered.full full
  exact ⟨gathered.nodup, fun hash item => foundFrom_of_gathered visible found gathered item,
    Nat.le_of_eq length, fun less => absurd length (Nat.ne_of_lt less)⟩

/-- What is found from the first address comes before what is found from the others. -/
private theorem Collects.append (partly : g.full = false)
    (others : view.Collects limit g.room g.seen rest later) :
    view.Collects limit room seen (addr :: rest) (g.items ++ later) := by
  have used := gathered.used
  have length := others.length_le
  refine ⟨List.nodup_append.mpr ⟨gathered.nodup, others.nodup, ?_⟩, ?_, ?_, ?_⟩
  · rintro hash item other member rfl
    exact (others.fresh hash member).1 ((gathered.marked hash).mpr (Or.inr item))
  · intro hash member
    rcases List.mem_append.mp member with item | member
    · exact foundFrom_of_gathered visible found gathered item
    · obtain ⟨unseen, elsewhere⟩ := others.fresh hash member
      exact ⟨fun before => unseen ((gathered.marked hash).mpr (Or.inl before)),
        foundFrom_cons.mpr (Or.inr elsewhere)⟩
  · rw [List.length_append]
    omega
  · intro less hash listed
    rw [List.length_append] at less
    rcases foundFrom_cons.mp listed with ⟨-, around', same, here⟩ | elsewhere
    · obtain rfl : around = around' := Except.ok.inj (found.symm.trans same)
      exact (gathered.whole partly hash here).imp_right (List.mem_append_left _)
    · have met := others.whole (by omega) hash elsewhere
      rw [gathered.marked, or_assoc, ← List.mem_append] at met
      exact met

end Collects

private theorem componentFrom_collects {room : Nat} {addrs items : List Hash}
    (ran : view.componentFrom limit room seen addrs = .ok items) :
    view.Collects limit room seen addrs items := by
  induction addrs generalizing room seen items with
  | nil =>
    obtain rfl : [] = items := Except.ok.inj ran
    exact ⟨List.nodup_nil, by simp, Nat.zero_le _, by simp [FoundFrom]⟩
  | cons addr rest ih =>
    unfold componentFrom at ran
    split at ran
    · rename_i visible
      cases found : view.around addr limit with
      | error cycle => simp [found] at ran
      | ok around =>
        simp only [found] at ran
        split at ran
        · rename_i full
          obtain rfl := Except.ok.inj ran
          exact .of_full visible found gather_from full
        · rename_i partly
          obtain ⟨later, others, rfl⟩ := map_eq_ok.mp ran
          exact .append visible found gather_from (by simpa using partly) (ih others)
    · rename_i hidden
      exact .of_hidden hidden (ih ran)

theorem component_collects {addrs items : List Hash} (ran : view.component addrs limit = .ok items) :
    view.Collects limit limit ∅ addrs items :=
  componentFrom_collects ran

/-- The first address is the first to be gathered if it shows. -/
theorem component_first {addr : Hash} {rest items : List Hash} (visible : view.contains addr = true)
    (room : 0 < limit) (ran : view.component (addr :: rest) limit = .ok items) :
    ∃ later, items = addr :: later := by
  obtain ⟨fewer, rfl⟩ := Nat.exists_eq_succ_of_ne_zero (Nat.ne_of_gt room)
  simp only [component, componentFrom, visible, ↓reduceIte] at ran
  cases found : view.around addr (fewer + 1) with
  | error cycle => simp [found] at ran
  | ok around =>
    obtain ⟨walk, -, rfl⟩ := map_eq_ok.mp found
    obtain ⟨later, first⟩ : ∃ later, (gather (fewer + 1) ∅ (addr :: walk.visited ++ walk.localEnds ++
        (view.searchAfter addr ∅ (fewer + 1)).visited)).items = addr :: later := by simp [gather]
    simp only [found] at ran
    split at ran
    · exact ⟨later, first ▸ (Except.ok.inj ran).symm⟩
    · obtain ⟨more, -, rfl⟩ := map_eq_ok.mp ran
      exact ⟨later ++ more, congrArg (· ++ more) first⟩

private theorem componentFrom_ok (limit : Nat) (addrs : List Hash) (room : Nat) (seen : HashSet)
    (acyclic : ∀ hash, ¬ Relation.TransGen view.Precedes hash hash) :
    ∃ items, view.componentFrom limit room seen addrs = .ok items := by
  induction addrs generalizing room seen with
  | nil => exact ⟨_, rfl⟩
  | cons addr rest ih =>
    obtain ⟨ahead, walked⟩ := searchAhead_ok addr ∅ limit acyclic
    unfold componentFrom
    simp only [around, walked, Except.map]
    split
    · split
      · exact ⟨_, rfl⟩
      · exact (ih _ _).imp' (_ ++ ·) fun items others => by rw [others]
    · exact ih _ _

theorem component_ok (addrs : List Hash) (limit : Nat)
    (acyclic : ∀ hash, ¬ Relation.TransGen view.Precedes hash hash) :
    ∃ items, view.component addrs limit = .ok items :=
  componentFrom_ok limit addrs limit ∅ acyclic

end GraphView

end HashLog
