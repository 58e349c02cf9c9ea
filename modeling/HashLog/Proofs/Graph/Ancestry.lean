import HashLog.Proofs.Graph.Walks
import Mathlib.Data.Set.Finite.List
/-!
Where a walk toward older records ends, whatever the view, with cycles or without. The records before
the start, one step after the other, come to a first one that has no known predecessor, is a terminal
or was met before, because there are only finitely many hashes. A walk passes what lies in between, as
far as its limit goes, and the record at which it stops decides what it returns
(`searchAhead_until_first_stop`).
-/
namespace HashLog

instance finite_byte : Finite UInt8 := Finite.of_injective UInt8.toFin fun _ _ => UInt8.toFin_inj.mp

instance Hash.finite : Finite Hash :=
  have : Finite {bytes : List UInt8 | bytes.length = 32} := (List.finite_length_eq UInt8 32).to_subtype
  Finite.of_injective (fun hash : Hash => (⟨hash.toList, hash.length_toList⟩ :
    {bytes : List UInt8 | bytes.length = 32})) fun _ _ same => Hash.ext_toList (congrArg Subtype.val same)

namespace GraphView

variable {view : GraphView} {terminals seen : HashSet} {start next stop hash : Hash}
  {budget limit place count passed step : Nat} {walk : Walk}

/-- The record so many steps before the start, as long as predecessors are known. -/
def above (view : GraphView) (start : Hash) : (steps : Nat) → Option Hash
  | 0 => some start
  | steps + 1 => (view.above start steps).bind view.knownPrev

/-- The records before the start, the nearest first: `count` of them from the one `place + 1` steps
before it. -/
def stretch (view : GraphView) (start : Hash) (place count : Nat) : List Hash :=
  (List.range' (place + 1) count).filterMap (view.above start)

/-- The nearest records before the start. -/
def ancestors (view : GraphView) (start : Hash) (count : Nat) : List Hash := view.stretch start 0 count

/-- At so many steps before the start there is a record at which a walk goes no further: it has no known
predecessor, or is a terminal, or the walk has come back to it. -/
def StopsAt (view : GraphView) (terminals : HashSet) (start : Hash) (step : Nat) (stop : Hash) : Prop :=
  view.above start step = some stop ∧
    (view.knownPrev stop = none ∨ stop ∈ terminals ∨ ∃ earlier < step, view.above start earlier = some stop)

/-- The first such record after the start lies behind so many others. -/
structure FirstStop (view : GraphView) (terminals : HashSet) (start : Hash) (passed : Nat) (stop : Hash) :
    Prop where
  stops : view.StopsAt terminals start (passed + 1) stop
  first : ∀ step, 0 < step → step ≤ passed → ∀ hash, ¬ view.StopsAt terminals start step hash

theorem above_succ (here : view.above start step = some hash) :
    view.above start (step + 1) = view.knownPrev hash := by
  rw [above, here, Option.bind_some]

/-! ## There is a first stop -/

/-- A way that never stops would pass infinitely many hashes. -/
private theorem exists_stopsAt (view : GraphView) (terminals : HashSet) (start : Hash)
    (known : view.knownPrev start ≠ none) : ∃ step stop, view.StopsAt terminals start (step + 1) stop := by
  by_contra never
  have goes : ∀ step, ∃ hash, view.above start step = some hash ∧ view.knownPrev hash ≠ none := by
    intro step
    induction step with
    | zero => exact ⟨start, rfl, known⟩
    | succ step ih =>
      obtain ⟨hash, here, further⟩ := ih
      obtain ⟨prev, known⟩ := Option.ne_none_iff_exists'.mp further
      refine ⟨prev, (above_succ here).trans known, fun oldest => never ⟨step, prev, ?_⟩⟩
      exact ⟨(above_succ here).trans known, Or.inl oldest⟩
  choose passes here _ using goes
  -- the later of two equal records would be a stop
  have apart : ∀ earlier later, earlier < later → passes earlier ≠ passes later := by
    intro earlier later before same
    obtain ⟨step, rfl⟩ := Nat.exists_eq_succ_of_ne_zero (Nat.ne_of_gt (Nat.zero_lt_of_lt before))
    exact never ⟨step, _, here _, Or.inr (Or.inr ⟨earlier, before, same ▸ here earlier⟩)⟩
  refine not_injective_infinite_finite passes fun a b same => ?_
  rcases Nat.lt_trichotomy a b with before | rfl | after
  · exact absurd same (apart a b before)
  · rfl
  · exact absurd same.symm (apart b a after)

theorem exists_firstStop (view : GraphView) (terminals : HashSet) (start : Hash)
    (known : view.knownPrev start ≠ none) : ∃ passed stop, view.FirstStop terminals start passed stop := by
  classical
  have stops := exists_stopsAt view terminals start known
  obtain ⟨stop, here⟩ := Nat.find_spec stops
  refine ⟨Nat.find stops, stop, here, ?_⟩
  intro step positive before hash earlier
  obtain ⟨fewer, rfl⟩ := Nat.exists_eq_succ_of_ne_zero (Nat.ne_of_gt positive)
  exact Nat.find_min stops before ⟨hash, earlier⟩

namespace FirstStop

variable (ends : view.FirstStop terminals start passed stop)
include ends

/-- Up to the stop there is a record at every step. -/
theorem exists_above (within : step ≤ passed + 1) : ∃ hash, view.above start step = some hash := by
  by_contra ended
  have gone : ∀ more, view.above start (step + more) = none := by
    intro more
    induction more with
    | zero => exact Option.not_isSome_iff_eq_none.mp (mt Option.isSome_iff_exists.mp ended)
    | succ more ih => rw [← Nat.add_assoc, above, ih, Option.bind_none]
  have met := ends.stops.1
  rw [← Nat.add_sub_of_le within, gone] at met
  cases met

/-- A record before the stop has a known predecessor, is no terminal and was not met before. -/
theorem goes_on (positive : 0 < step) (before : step ≤ passed) (here : view.above start step = some hash) :
    view.knownPrev hash ≠ none ∧ hash ∉ terminals ∧
      ∀ earlier < step, view.above start earlier ≠ some hash := by
  have goes := ends.first step positive before hash
  exact ⟨fun oldest => goes ⟨here, Or.inl oldest⟩, fun terminal => goes ⟨here, Or.inr (Or.inl terminal)⟩,
    fun earlier less same => goes ⟨here, Or.inr (Or.inr ⟨earlier, less, same⟩)⟩⟩

theorem length_ancestors (within : count ≤ passed) : (view.ancestors start count).length = count := by
  have all : ∀ step ∈ List.range' 1 count, (view.above start step).isSome := by
    intro step member
    obtain ⟨-, less⟩ := List.mem_range'_1.mp member
    exact Option.isSome_iff_exists.mpr (ends.exists_above (by omega))
  rw [ancestors, stretch, List.length_filterMap_eq_countP, List.countP_eq_length.mpr all, List.length_range']

/-- Before the stop no record is met twice. -/
theorem nodup_ancestors (within : count ≤ passed) : (start :: view.ancestors start count).Nodup := by
  have whole : start :: view.ancestors start count =
      (List.range' 0 (count + 1)).filterMap (view.above start) := by
    rw [List.range'_succ, List.filterMap_cons_some (show view.above start 0 = some start from rfl)]
    rfl
  rw [whole, List.Nodup, List.pairwise_filterMap]
  refine (List.pairwise_lt_range' (s := 0) (n := count + 1)).imp_of_mem ?_
  rintro earlier later - member less hash before _ here rfl
  obtain ⟨-, bound⟩ := List.mem_range'_1.mp member
  exact (ends.goes_on (Nat.zero_lt_of_lt less) (by omega) here).2.2 earlier less before

end FirstStop

/-! ## The walk comes to it -/

/-- What a walk returns at a record at which it goes no further. -/
def halt (view : GraphView) (terminals : HashSet) (stop : Hash) : Except Cycle Walk :=
  match view.knownPrev stop with
  | none => .ok (.endAt stop)
  | some _ => if terminals.contains stop then .ok .empty else .error ⟨stop⟩

/-- A walk is about to look at the record one step after `place`, and has met what lies before it. -/
structure Trail (view : GraphView) (start : Hash) (place : Nat) (seen : HashSet) (next : Hash) : Prop where
  here : view.above start (place + 1) = some next
  met : ∀ hash, hash ∈ seen ↔ ∃ step ≤ place, view.above start step = some hash

theorem stretch_succ (here : view.above start (place + 1) = some next) :
    view.stretch start place (count + 1) = next :: view.stretch start (place + 1) count := by
  rw [stretch, List.range'_succ, List.filterMap_cons_some here, stretch]

namespace Trail

variable (trail : view.Trail start place seen next)
include trail

theorem succ {further : Hash} (known : view.knownPrev next = some further) :
    view.Trail start (place + 1) (seen.insert next) further := by
  refine ⟨(above_succ trail.here).trans known, fun hash => ?_⟩
  rw [mem_insert_iff, trail.met]
  constructor
  · rintro (rfl | ⟨step, before, here⟩)
    · exact ⟨place + 1, Nat.le_refl _, trail.here⟩
    · exact ⟨step, Nat.le_succ_of_le before, here⟩
  · rintro ⟨step, before, here⟩
    rcases Nat.le_succ_iff.mp before with before | rfl
    · exact Or.inr ⟨step, before, here⟩
    · exact Or.inl (Option.some.inj (here.symm.trans trail.here))

/-- The walk stops at the first stop. -/
theorem halts (stops : view.StopsAt terminals start (place + 1) stop) :
    view.aheadFrom terminals budget seen next = view.halt terminals stop := by
  obtain rfl : next = stop := Option.some.inj (trail.here.symm.trans stops.1)
  unfold aheadFrom halt
  cases known : view.knownPrev next with
  | none => rfl
  | some further =>
    dsimp only
    by_cases terminal : next ∈ terminals
    · rw [if_pos (by simpa using terminal), if_pos (by simpa using terminal)]
    · obtain ⟨earlier, less, back⟩ := (stops.2.resolve_left (by simp [known])).resolve_left terminal
      have old : next ∈ seen := (trail.met next).mpr ⟨earlier, Nat.le_of_lt_succ less, back⟩
      rw [if_neg (by simpa using terminal), if_pos (by simpa using old), if_neg (by simpa using terminal)]

variable (ends : view.FirstStop terminals start passed stop)
include ends

/-- Before the first stop the walk passes a record if the limit allows it one more, and is cut otherwise. -/
theorem goes_on (before : place < passed) : ∃ further,
    view.Trail start (place + 1) (seen.insert next) further ∧
    view.aheadFrom terminals 0 seen next = .ok .cut ∧
    ∀ budget, view.aheadFrom terminals (budget + 1) seen next =
      (view.aheadFrom terminals budget (seen.insert next) further).map (·.after [next]) := by
  obtain ⟨older, outside, new⟩ := ends.goes_on (Nat.succ_pos place) before trail.here
  obtain ⟨further, known⟩ := Option.ne_none_iff_exists'.mp older
  have unseen : next ∉ seen := fun old => by
    obtain ⟨step, less, back⟩ := (trail.met next).mp old
    exact new step (Nat.lt_succ_of_le less) back
  refine ⟨further, trail.succ known, ?_, fun budget => ?_⟩
  · rw [aheadFrom]
    simp [known, outside, unseen]
  · rw [aheadFrom]
    simp [known, outside, unseen]

/-- A walk whose limit reaches to the first stop passes all that lies before it. -/
theorem aheadFrom_eq_halt {left : Nat} (distance : passed = place + left) (room : left ≤ budget) :
    view.aheadFrom terminals budget seen next =
      (view.halt terminals stop).map (·.after (view.stretch start place left)) := by
  induction left generalizing place budget seen next with
  | zero =>
    subst distance
    rw [trail.halts ends.stops]
    cases view.halt terminals stop <;> rfl
  | succ left ih =>
    obtain ⟨fewer, rfl⟩ := Nat.exists_eq_add_of_le' (Nat.le_trans (Nat.le_add_left 1 left) room)
    obtain ⟨further, later, -, goes⟩ := trail.goes_on ends (by omega)
    rw [goes, ih later (by omega) (by omega), stretch_succ trail.here]
    cases view.halt terminals stop <;> rfl

/-- A walk whose limit does not reach so far passes as much as the limit allows. -/
theorem aheadFrom_eq_cut (short : place + budget < passed) : view.aheadFrom terminals budget seen next =
    .ok ⟨view.stretch start place budget, [], true⟩ := by
  induction budget generalizing place seen next with
  | zero =>
    obtain ⟨_, -, cut, -⟩ := trail.goes_on ends (by omega)
    exact cut
  | succ budget ih =>
    obtain ⟨further, later, -, goes⟩ := trail.goes_on ends (by omega)
    rw [goes, ih later (by omega), stretch_succ trail.here]
    rfl

end Trail

section SearchAhead

variable (outside : start ∉ terminals) (ends : view.FirstStop terminals start passed stop)
include outside ends

theorem FirstStop.searchAhead_eq : view.searchAhead start terminals limit =
    if passed ≤ limit then (view.halt terminals stop).map (·.after (view.ancestors start passed))
    else .ok ⟨view.ancestors start limit, [], true⟩ := by
  obtain ⟨next, here⟩ := ends.exists_above (Nat.le_add_left 1 passed)
  have trail : view.Trail start 0 (HashSet.ofList [start]) next := by
    refine ⟨here, fun hash => ?_⟩
    rw [HashSet.mem_ofList, List.mem_singleton]
    constructor
    · rintro rfl
      exact ⟨0, Nat.le_refl _, rfl⟩
    · rintro ⟨step, none, same⟩
      obtain rfl := Nat.le_zero.mp none
      exact (Option.some.inj same).symm
  unfold searchAhead
  rw [if_neg (by simpa using outside), show view.knownPrev start = some next from here]
  dsimp only
  split
  · rename_i room
    exact trail.aheadFrom_eq_halt ends (Nat.zero_add _).symm room
  · rename_i short
    exact trail.aheadFrom_eq_cut ends (by omega)

/-- A walk that returns has passed the nearest records before its start, as far as its limit went. -/
theorem FirstStop.passes (ran : view.searchAhead start terminals limit = .ok walk) :
    walk.visited = view.ancestors start (min passed limit) ∧ walk.truncated = decide (limit < passed) := by
  rw [ends.searchAhead_eq outside] at ran
  split at ran
  · rename_i room
    obtain ⟨last, halts, rfl⟩ := map_eq_ok.mp ran
    rw [Nat.min_eq_left room, decide_eq_false (Nat.not_lt.mpr room)]
    unfold halt at halts
    split at halts
    · obtain rfl := Except.ok.inj halts
      exact ⟨List.append_nil _, rfl⟩
    · split at halts
      · obtain rfl := Except.ok.inj halts
        exact ⟨List.append_nil _, rfl⟩
      · cases halts
  · rename_i short
    obtain rfl := Except.ok.inj ran
    rw [Nat.min_eq_right (Nat.le_of_not_le short)]
    exact ⟨rfl, (decide_eq_true (Nat.lt_of_not_le short)).symm⟩

/-- A limit cuts a walk exactly if some higher one finds something else. -/
theorem FirstStop.truncated_iff (ran : view.searchAhead start terminals limit = .ok walk) :
    walk.truncated = true ↔ ∃ more ≥ limit, view.searchAhead start terminals more ≠ .ok walk := by
  have cut := (ends.passes outside ran).2
  rw [cut, decide_eq_true_iff]
  constructor
  · intro short
    refine ⟨passed, Nat.le_of_lt short, fun same => ?_⟩
    have whole := (ends.passes outside same).2
    rw [cut, decide_eq_true short, decide_eq_false (Nat.lt_irrefl _)] at whole
    cases whole
  · rintro ⟨more, higher, other⟩
    by_contra room
    refine other ?_
    rw [← ran, ends.searchAhead_eq outside, ends.searchAhead_eq outside, if_pos (by omega),
      if_pos (by omega)]

end SearchAhead

theorem searchAhead_of_terminal (inside : start ∈ terminals) :
    view.searchAhead start terminals limit = .ok .empty := by
  rw [searchAhead, if_pos (by simpa using inside)]

theorem searchAhead_of_oldest (outside : start ∉ terminals) (oldest : view.knownPrev start = none) :
    view.searchAhead start terminals limit = .ok (.endAt start) := by
  rw [searchAhead, if_neg (by simpa using outside), oldest]

/-- A walk that its start stops passes nothing, whatever the limit; any other one has a first stop ahead. -/
theorem searchAhead_still_or_stops (ran : view.searchAhead start terminals limit = .ok walk) :
    (walk.visited = [] ∧ walk.truncated = false ∧
      ∀ more, view.searchAhead start terminals more = .ok walk) ∨
    start ∉ terminals ∧ ∃ passed stop, view.FirstStop terminals start passed stop := by
  by_cases inside : start ∈ terminals
  · obtain rfl := Except.ok.inj ((searchAhead_of_terminal inside).symm.trans ran)
    exact Or.inl ⟨rfl, rfl, fun _ => searchAhead_of_terminal inside⟩
  by_cases known : view.knownPrev start = none
  · obtain rfl := Except.ok.inj ((searchAhead_of_oldest inside known).symm.trans ran)
    exact Or.inl ⟨rfl, rfl, fun _ => searchAhead_of_oldest inside known⟩
  · exact Or.inr ⟨inside, exists_firstStop view terminals start known⟩

/-- Whatever a walk returns, it has passed the nearest records before its start, none of them twice, and it
is marked as cut exactly if some higher limit finds something else. -/
theorem searchAhead_passes_nearest (ran : view.searchAhead start terminals limit = .ok walk) :
    (start :: walk.visited).Nodup ∧
    (∃ count ≤ limit, walk.visited = view.ancestors start count ∧ walk.visited.length = count) ∧
    (walk.truncated = true ↔ ∃ more ≥ limit, view.searchAhead start terminals more ≠ .ok walk) := by
  rcases searchAhead_still_or_stops ran with ⟨nothing, whole, same⟩ | ⟨outside, passed, stop, ends⟩
  · rw [nothing, whole]
    exact ⟨List.nodup_singleton _, ⟨0, Nat.zero_le _, rfl, rfl⟩, nofun,
      fun ⟨more, _, other⟩ => absurd (same more) other⟩
  · have passes := (ends.passes outside ran).1
    refine ⟨?_, ⟨min passed limit, Nat.min_le_right _ _, passes, ?_⟩, ends.truncated_iff outside ran⟩
    · rw [passes]
      exact ends.nodup_ancestors (Nat.min_le_left _ _)
    · rw [passes]
      exact ends.length_ancestors (Nat.min_le_left _ _)

/-- A walk toward older records returns at once from a terminal, and ends where it starts if no
predecessor is known there. Otherwise the records before the start come to a first stop, and the walk
passes all that lie before it, none of them twice and none of them the start; at the stop it finds the end
of what the view shows, or a terminal, or a cycle, looked for in this order. A limit below their number
cuts the walk there. -/
theorem searchAhead_until_first_stop (view : GraphView) (start : Hash) (terminals : HashSet) (limit : Nat) :
    (start ∈ terminals → view.searchAhead start terminals limit = .ok ⟨[], [], false⟩) ∧
    (start ∉ terminals → view.knownPrev start = none →
      view.searchAhead start terminals limit = .ok ⟨[], [start], false⟩) ∧
    (start ∉ terminals → view.knownPrev start ≠ none → ∃ passed stop,
      view.FirstStop terminals start passed stop ∧
      (view.ancestors start passed).length = passed ∧ (start :: view.ancestors start passed).Nodup ∧
      (passed ≤ limit →
        (view.knownPrev stop = none → view.searchAhead start terminals limit =
          .ok ⟨view.ancestors start passed, [stop], false⟩) ∧
        (view.knownPrev stop ≠ none → stop ∈ terminals → view.searchAhead start terminals limit =
          .ok ⟨view.ancestors start passed, [], false⟩) ∧
        (view.knownPrev stop ≠ none → stop ∉ terminals →
          view.searchAhead start terminals limit = .error ⟨stop⟩)) ∧
      (limit < passed → view.searchAhead start terminals limit =
        .ok ⟨view.ancestors start limit, [], true⟩)) ∧
    ∀ walk, view.searchAhead start terminals limit = .ok walk →
      (start :: walk.visited).Nodup ∧
      (∃ count ≤ limit, walk.visited = view.ancestors start count ∧ walk.visited.length = count) ∧
      (walk.truncated = true ↔ ∃ more ≥ limit, view.searchAhead start terminals more ≠ .ok walk) := by
  refine ⟨searchAhead_of_terminal, searchAhead_of_oldest, fun outside known => ?_,
    fun _ => searchAhead_passes_nearest⟩
  obtain ⟨passed, stop, ends⟩ := exists_firstStop view terminals start known
  refine ⟨passed, stop, ends, ends.length_ancestors (Nat.le_refl _), ends.nodup_ancestors (Nat.le_refl _),
    fun room => ?_, fun short => ?_⟩
  · rw [ends.searchAhead_eq outside, if_pos room, halt]
    refine ⟨fun oldest => ?_, fun further inside => ?_, fun further beyond => ?_⟩
    · rw [oldest]
      simp [Walk.after, Walk.endAt, Except.map]
    · obtain ⟨prev, known⟩ := Option.ne_none_iff_exists'.mp further
      simp [known, inside, Walk.after, Walk.empty, Except.map]
    · obtain ⟨prev, known⟩ := Option.ne_none_iff_exists'.mp further
      simp [known, beyond, Except.map]
  · rw [ends.searchAhead_eq outside, if_neg (Nat.not_le.mpr short)]

end GraphView

end HashLog
