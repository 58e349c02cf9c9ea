import HashLog.Proofs.Graph.Ancestry
import Mathlib.Data.Set.Card
/-!
What a walk toward newer records finds, whatever the view: forks, cycles and children named twice
included. Its marks and its stack keep it to hashes that it has a way to, each once and with the one
that leads to it passed before; a walk that is not cut is closed under going on, and one that is cut
has spent its whole limit and left something out. So the limit cuts a walk exactly if it is below the
number of hashes that can be reached (`searchAfter_reaches`).
-/
namespace HashLog

namespace GraphView

variable {view : GraphView} {terminals seen : HashSet} {budget limit : Nat} {start hash : Hash}
  {walk : Walk} {stack : List Hash}

/-- A step toward newer records, to one that is no terminal. -/
def Onward (view : GraphView) (terminals : HashSet) (prev child : Hash) : Prop :=
  view.Follows prev child ∧ child ∉ terminals

/-- What a walk from the records on the stack finds beside what it has marked as seen. -/
structure Sweep (view : GraphView) (terminals : HashSet) (budget : Nat) (seen : HashSet)
    (stack : List Hash) (walk : Walk) : Prop where
  nodup : walk.visited.Nodup
  fresh : ∀ hash ∈ walk.visited, hash ∉ terminals ∧ hash ∉ seen
  bounded : walk.visited.length ≤ budget
  ordered : ∀ before hash later, walk.visited = before ++ hash :: later →
    ∃ prev, (prev ∈ stack ∨ prev ∈ before) ∧ view.Follows prev hash
  closed : walk.truncated = false → ∀ prev child, prev ∈ stack ∨ prev ∈ walk.visited →
    view.Onward terminals prev child → child ∈ seen ∨ child ∈ walk.visited
  ended : ∀ hash ∈ walk.localEnds,
    (hash ∈ stack ∨ hash ∈ walk.visited) ∧ view.nextHashes hash = []
  whole : walk.truncated = false → ∀ hash, hash ∈ stack ∨ hash ∈ walk.visited →
    view.nextHashes hash = [] → hash ∈ walk.localEnds
  cut : walk.truncated = true → walk.visited.length = budget ∧
    ∃ prev child, (prev ∈ stack ∨ prev ∈ walk.visited) ∧ view.Onward terminals prev child ∧
      child ∉ seen ∧ child ∉ walk.visited

/-- A record without children changes nothing but the ends. -/
private theorem Sweep.leaf {current : Hash} (childless : view.nextHashes current = [])
    (rest : view.Sweep terminals budget seen stack walk) :
    view.Sweep terminals budget seen (current :: stack)
      { walk with localEnds := current :: walk.localEnds } := by
  refine ⟨rest.nodup, rest.fresh, rest.bounded, ?_, ?_, ?_, ?_, ?_⟩
  · intro before hash later split
    obtain ⟨prev, from_, names⟩ := rest.ordered before hash later split
    exact ⟨prev, from_.imp_left (List.mem_cons_of_mem _), names⟩
  · intro uncut prev child from_ onward
    rw [List.mem_cons, or_assoc] at from_
    refine rest.closed uncut prev child (from_.resolve_left ?_) onward
    rintro rfl
    simp [Onward, Follows, childless] at onward
  · intro hash ended
    rcases List.mem_cons.mp ended with rfl | later
    · exact ⟨Or.inl List.mem_cons_self, childless⟩
    · exact (rest.ended hash later).imp_left (Or.imp_left (List.mem_cons_of_mem _))
  · intro uncut hash from_ none
    rw [List.mem_cons, or_assoc] at from_
    exact List.mem_cons.mpr (from_.imp_right fun later => rest.whole uncut hash later none)
  · intro cut
    obtain ⟨spent, prev, child, from_, found⟩ := rest.cut cut
    exact ⟨spent, prev, child, from_.imp_left (List.mem_cons_of_mem _), found⟩

section Expand

variable {current : Hash} {e : Expansion}
  (takes : e.Takes terminals budget seen (view.nextHashes current))
include takes

/-- Where the children use up the limit, the walk is cut. -/
private theorem Sweep.of_cut (cut : e.truncated = true) :
    view.Sweep terminals budget seen (current :: stack) (Walk.cut.after e.fresh) := by
  have visited : (Walk.cut.after e.fresh).visited = e.fresh := List.append_nil _
  obtain ⟨spent, child, listed, beyond, unseen, left⟩ := takes.cut cut
  have length : e.fresh.length = budget := by
    have used := takes.used
    omega
  constructor
  case closed | whole | ended => exact nofun
  all_goals rw [visited]
  case nodup => exact takes.nodup
  case fresh => exact fun child member => (takes.fresh child member).2
  case bounded => exact Nat.le_of_eq length
  case ordered =>
    intro before hash later split
    have member : hash ∈ e.fresh := split ▸ List.mem_append_right _ List.mem_cons_self
    exact ⟨current, Or.inl List.mem_cons_self, (takes.fresh hash member).1⟩
  case cut =>
    exact fun _ => ⟨length, current, child, Or.inl List.mem_cons_self, ⟨listed, beyond⟩, unseen, left⟩

/-- Otherwise the children taken up are passed, and the walk goes on with them on the stack. -/
private theorem Sweep.after (children : view.nextHashes current ≠ []) (uncut : e.truncated = false)
    (rest : view.Sweep terminals e.budget e.seen (e.fresh.reverse ++ stack) walk) :
    view.Sweep terminals budget seen (current :: stack) (walk.after e.fresh) := by
  have used := takes.used
  have marked := takes.marked uncut
  -- what the walk goes on from is what it starts from in the turns that follow, but for `current`
  have from_iff : ∀ prev, prev ∈ current :: stack ∨ prev ∈ (walk.after e.fresh).visited ↔
      prev = current ∨ prev ∈ e.fresh.reverse ++ stack ∨ prev ∈ walk.visited := by
    intro prev
    simp only [Walk.after, List.mem_cons, List.mem_append, List.mem_reverse]
    tauto
  constructor
  case nodup =>
    refine List.nodup_append.mpr ⟨takes.nodup, rest.nodup, ?_⟩
    rintro hash new other later rfl
    exact (rest.fresh hash later).2 ((marked hash).mpr (Or.inr new))
  case fresh =>
    intro hash member
    rcases List.mem_append.mp member with new | later
    · exact (takes.fresh hash new).2
    · exact (rest.fresh hash later).imp_right fun unseen old => unseen ((marked hash).mpr (Or.inl old))
  case bounded =>
    have length := rest.bounded
    rw [Walk.after, List.length_append]
    omega
  case ordered =>
    intro before hash later split
    rcases split_append split with ⟨between, own⟩ | ⟨between, rfl, further⟩
    · have new : hash ∈ e.fresh := own ▸ List.mem_append_right _ List.mem_cons_self
      exact ⟨current, Or.inl List.mem_cons_self, (takes.fresh hash new).1⟩
    · -- what comes in the later turns comes after all the children that were taken up in this one
      obtain ⟨prev, from_, names⟩ := rest.ordered between hash later further
      refine ⟨prev, ?_, names⟩
      simp only [List.mem_append, List.mem_reverse, List.mem_cons] at from_ ⊢
      tauto
  case closed =>
    intro whole prev child from_ onward
    have met : child ∈ seen ∨ child ∈ e.fresh ∨ child ∈ walk.visited := by
      rcases (from_iff prev).mp from_ with rfl | later
      · rw [← or_assoc]
        exact Or.inl ((takes.whole uncut child onward.1).resolve_left onward.2)
      · have passed := rest.closed whole prev child later onward
        rwa [marked, or_assoc] at passed
    exact met.imp_right List.mem_append.mpr
  case ended =>
    intro hash ended
    obtain ⟨from_, childless⟩ := rest.ended hash ended
    exact ⟨(from_iff hash).mpr (Or.inr from_), childless⟩
  case whole =>
    intro whole hash from_ childless
    refine rest.whole whole hash (((from_iff hash).mp from_).resolve_left ?_) childless
    rintro rfl
    exact children childless
  case cut =>
    intro cut
    obtain ⟨spent, prev, child, from_, onward, unseen, left⟩ := rest.cut cut
    rw [marked, not_or] at unseen
    refine ⟨?_, prev, child, (from_iff prev).mpr (Or.inr from_), onward, unseen.1, ?_⟩
    · rw [Walk.after, List.length_append]
      omega
    · exact fun passed => (List.mem_append.mp passed).elim unseen.2 left

end Expand

private theorem Sweep.done : view.Sweep terminals budget seen [] .empty := by
  constructor <;> simp [Walk.empty]

private theorem afterFrom_sweeps {fuel : Nat} (fuelled : budget + stack.length ≤ fuel) :
    view.Sweep terminals budget seen stack (view.afterFrom terminals fuel budget seen stack) := by
  induction fuel generalizing budget seen stack with
  | zero =>
    obtain rfl : stack = [] := List.eq_nil_of_length_eq_zero (by omega)
    exact .done
  | succ fuel ih =>
    cases stack with
    | nil => exact .done
    | cons current stack =>
      rw [List.length_cons] at fuelled
      rcases afterFrom_cases view terminals fuel budget seen current stack with
        ⟨childless, turned⟩ | ⟨children, e, takes, turned⟩
      · rw [turned]
        exact .leaf childless (ih (by omega))
      · rw [turned]
        cases cut : e.truncated with
        | true => exact .of_cut takes cut
        | false =>
          -- a turn takes off the stack the record that it spends fuel on, and pays for what it pushes
          have room : e.budget + (e.fresh.reverse ++ stack).length ≤ fuel := by
            have used := takes.used
            rw [List.length_append, List.length_reverse]
            omega
          exact .after takes children cut (ih room)

/-- What a walk toward newer records from `start` can come to without meeting a terminal. -/
def reach (view : GraphView) (terminals : HashSet) (start : Hash) : Set Hash :=
  {hash | hash ≠ start ∧ Relation.TransGen (view.Onward terminals) start hash}

theorem searchAfter_sweeps (outside : start ∉ terminals) : view.Sweep terminals limit
    (HashSet.ofList [start]) [start] (view.searchAfter start terminals limit) := by
  rw [searchAfter, if_neg (by simpa using outside)]
  exact afterFrom_sweeps (by simp)

namespace Sweep

variable (sweep : view.Sweep terminals limit (HashSet.ofList [start]) [start] walk)
include sweep

theorem ne_start (passed : hash ∈ walk.visited) : hash ≠ start := by
  simpa using (sweep.fresh hash passed).2

/-- A way to a hash that is passed leads through what was passed before it. -/
theorem onward {before later : List Hash} (split : walk.visited = before ++ hash :: later) :
    Relation.TransGen (view.Onward terminals) start hash := by
  induction length : before.length using Nat.strong_induction_on generalizing before hash later with
  | _ count ih =>
    obtain ⟨prev, from_, names⟩ := sweep.ordered before hash later split
    have passed : hash ∈ walk.visited := split ▸ List.mem_append_right _ List.mem_cons_self
    have last : view.Onward terminals prev hash := ⟨names, (sweep.fresh hash passed).1⟩
    rcases from_ with single | earlier
    · exact .single (List.mem_singleton.mp single ▸ last)
    · obtain ⟨first, between, rfl⟩ := List.append_of_mem earlier
      have shorter : first.length < count := by
        rw [← length, List.length_append, List.length_cons]
        omega
      have split' : walk.visited = first ++ prev :: (between ++ hash :: later) := by
        rw [split, List.append_assoc, List.cons_append]
      exact .tail (ih first.length shorter split' rfl) last

theorem mem_reach (passed : hash ∈ walk.visited) : hash ∈ view.reach terminals start := by
  obtain ⟨before, later, split⟩ := List.append_of_mem passed
  exact ⟨sweep.ne_start passed, sweep.onward split⟩

theorem descends (passed : hash ∈ walk.visited) : Relation.TransGen view.Follows start hash :=
  Relation.TransGen.mono (fun _ _ => And.left) _ _ (sweep.mem_reach passed).2

theorem exists_follows (passed : hash ∈ walk.visited) :
    ∃ prev, (prev = start ∨ prev ∈ walk.visited) ∧ view.Follows prev hash := by
  obtain ⟨before, later, split⟩ := List.append_of_mem passed
  obtain ⟨prev, from_, names⟩ := sweep.ordered before hash later split
  refine ⟨prev, from_.imp List.mem_singleton.mp fun earlier => ?_, names⟩
  exact split ▸ List.mem_append_left _ earlier

theorem ends_among (ended : hash ∈ walk.localEnds) : hash = start ∨ hash ∈ walk.visited :=
  (sweep.ended hash ended).1.imp_left List.mem_singleton.mp

/-- A walk that is not cut passes all that it can come to. -/
theorem mem_visited_iff (uncut : walk.truncated = false) :
    hash ∈ walk.visited ↔ hash ∈ view.reach terminals start := by
  refine ⟨sweep.mem_reach, ?_⟩
  rintro ⟨differs, path⟩
  have passes : ∀ prev child, prev = start ∨ prev ∈ walk.visited → view.Onward terminals prev child →
      child = start ∨ child ∈ walk.visited := by
    intro prev child from_ onward
    simpa using sweep.closed uncut prev child (from_.imp_left List.mem_singleton.mpr) onward
  refine (?_ : hash = start ∨ _).resolve_left differs
  clear differs
  induction path with
  | single onward => exact passes start _ (Or.inl rfl) onward
  | tail _ onward ih => exact passes _ _ ih onward

/-- A walk that is cut leaves out something that it could have come to. -/
theorem exists_left (cut : walk.truncated = true) :
    ∃ hash ∈ view.reach terminals start, hash ∉ walk.visited := by
  obtain ⟨-, prev, child, from_, onward, unseen, left⟩ := sweep.cut cut
  refine ⟨child, ⟨by simpa using unseen, ?_⟩, left⟩
  rcases from_ with single | passed
  · exact .single (List.mem_singleton.mp single ▸ onward)
  · exact .tail (sweep.mem_reach passed).2 onward

theorem ncard_visited : {hash | hash ∈ walk.visited}.ncard = walk.visited.length := by
  rw [← List.coe_toFinset, Set.ncard_coe_finset, List.toFinset_card_of_nodup sweep.nodup]

theorem truncated_iff : walk.truncated = true ↔ limit < (view.reach terminals start).ncard := by
  constructor
  · intro cut
    obtain ⟨hash, reached, left⟩ := sweep.exists_left cut
    have fewer : {hash | hash ∈ walk.visited} ⊂ view.reach terminals start :=
      Set.ssubset_iff_of_subset (fun _ => sweep.mem_reach) |>.mpr ⟨hash, reached, left⟩
    have less := Set.ncard_lt_ncard fewer (Set.toFinite _)
    rwa [sweep.ncard_visited, (sweep.cut cut).1] at less
  · intro short
    by_contra uncut
    have all : {hash | hash ∈ walk.visited} = view.reach terminals start :=
      Set.ext fun hash => sweep.mem_visited_iff (Bool.eq_false_iff.mpr uncut)
    have length := sweep.bounded
    rw [← sweep.ncard_visited, all] at length
    omega

end Sweep

/-- A limit that is not below the number of hashes to reach does not cut the walk. -/
theorem searchAfter_whole (outside : start ∉ terminals)
    (room : (view.reach terminals start).ncard ≤ limit) :
    (view.searchAfter start terminals limit).truncated = false ∧
    (∀ hash, hash ∈ (view.searchAfter start terminals limit).visited ↔
      hash ∈ view.reach terminals start) ∧
    ∀ hash, hash ∈ (view.searchAfter start terminals limit).localEnds ↔
      (hash = start ∨ hash ∈ view.reach terminals start) ∧ view.nextHashes hash = [] := by
  have sweep : view.Sweep terminals limit (HashSet.ofList [start]) [start] _ :=
    searchAfter_sweeps outside
  have uncut : (view.searchAfter start terminals limit).truncated = false :=
    Bool.eq_false_iff.mpr fun cut => Nat.not_lt.mpr room (sweep.truncated_iff.mp cut)
  refine ⟨uncut, fun hash => sweep.mem_visited_iff uncut, fun hash => ?_⟩
  rw [← sweep.mem_visited_iff uncut, ← List.mem_singleton (a := hash)]
  exact ⟨sweep.ended hash, fun both => sweep.whole uncut hash both.1 both.2⟩

/-- Views that name the same children, in whatever order, have the same to reach. -/
theorem reach_congr {other : GraphView}
    (same : ∀ prev child, child ∈ other.nextHashes prev ↔ child ∈ view.nextHashes prev) :
    other.reach terminals start = view.reach terminals start := by
  have onward : other.Onward terminals = view.Onward terminals := by
    funext prev child
    simp only [Onward, Follows, same]
  rw [reach, reach, onward]

/-- What an uncut walk passes, and where it ends, does not depend on the order in which a view lists
children. -/
theorem searchAfter_order_independent {other : GraphView} (outside : start ∉ terminals)
    (room : (view.reach terminals start).ncard ≤ limit)
    (same : ∀ prev child, child ∈ other.nextHashes prev ↔ child ∈ view.nextHashes prev) :
    (hash ∈ (other.searchAfter start terminals limit).visited ↔
      hash ∈ (view.searchAfter start terminals limit).visited) ∧
    (hash ∈ (other.searchAfter start terminals limit).localEnds ↔
      hash ∈ (view.searchAfter start terminals limit).localEnds) := by
  have reaches : other.reach terminals start = view.reach terminals start := reach_congr same
  have room' : (other.reach terminals start).ncard ≤ limit := reaches ▸ room
  obtain ⟨-, visited, ends⟩ := searchAfter_whole outside room
  obtain ⟨-, visited', ends'⟩ := searchAfter_whole outside room'
  have childless : other.nextHashes hash = [] ↔ view.nextHashes hash = [] := by
    simp only [List.eq_nil_iff_forall_not_mem, same]
  rw [visited', visited, ends', ends, reaches, childless]
  exact ⟨Iff.rfl, Iff.rfl⟩

/-- A walk toward newer records from a start that is no terminal passes nothing twice, neither its start
nor a terminal, and nothing before a record that it names. If the limit is not below the number of hashes
that it can reach, it is not cut, passes all of them and ends where there are no children, in whatever
order the view lists children; otherwise it is cut and passes as many of them as the limit allows. -/
theorem searchAfter_reaches (view : GraphView) (start : Hash) (terminals : HashSet) (limit : Nat)
    (outside : start ∉ terminals) :
    (view.searchAfter start terminals limit).visited.Nodup ∧
    start ∉ (view.searchAfter start terminals limit).visited ∧
    (∀ hash ∈ (view.searchAfter start terminals limit).visited, hash ∉ terminals) ∧
    (∀ before hash later, (view.searchAfter start terminals limit).visited = before ++ hash :: later →
      ∃ prev, (prev = start ∨ prev ∈ before) ∧ hash ∈ view.nextHashes prev) ∧
    ((view.reach terminals start).ncard ≤ limit →
      (view.searchAfter start terminals limit).truncated = false ∧
      (∀ hash, hash ∈ (view.searchAfter start terminals limit).visited ↔
        hash ∈ view.reach terminals start) ∧
      (∀ hash, hash ∈ (view.searchAfter start terminals limit).localEnds ↔
        (hash = start ∨ hash ∈ view.reach terminals start) ∧ view.nextHashes hash = []) ∧
      ∀ other : GraphView, (∀ prev child, child ∈ other.nextHashes prev ↔ child ∈ view.nextHashes prev) →
        ∀ hash, (hash ∈ (other.searchAfter start terminals limit).visited ↔
            hash ∈ (view.searchAfter start terminals limit).visited) ∧
          (hash ∈ (other.searchAfter start terminals limit).localEnds ↔
            hash ∈ (view.searchAfter start terminals limit).localEnds)) ∧
    (limit < (view.reach terminals start).ncard →
      (view.searchAfter start terminals limit).truncated = true ∧
      (view.searchAfter start terminals limit).visited.length = limit ∧
      ∀ hash ∈ (view.searchAfter start terminals limit).visited, hash ∈ view.reach terminals start) := by
  have sweep : view.Sweep terminals limit (HashSet.ofList [start]) [start] _ :=
    searchAfter_sweeps outside
  refine ⟨sweep.nodup, fun passed => sweep.ne_start passed rfl,
    fun hash passed => (sweep.fresh hash passed).1, fun before hash later split => ?_, fun room => ?_,
    fun short => ?_⟩
  · obtain ⟨prev, from_, names⟩ := sweep.ordered before hash later split
    exact ⟨prev, from_.imp_left List.mem_singleton.mp, names⟩
  · obtain ⟨uncut, visited, ends⟩ := searchAfter_whole outside room
    exact ⟨uncut, visited, ends, fun other same hash => searchAfter_order_independent outside room same⟩
  · have cut := sweep.truncated_iff.mpr short
    exact ⟨cut, (sweep.cut cut).1, fun hash => sweep.mem_reach⟩

/-- A child listed twice, one that leads back to the start, and the start among its own children. -/
theorem searchAfter_reaches_of_cycle :
    let a : Hash := ⟨.fill 32 1⟩
    let b : Hash := ⟨.fill 32 2⟩
    let c : Hash := ⟨.fill 32 3⟩
    let view : GraphView := ⟨fun _ => true, fun _ => none,
      fun hash => if hash = a then [b, b, a] else if hash = b then [a, c] else [], .empty⟩
    a ∉ HashSet.ofList [c] ∧ (view.searchAfter a (HashSet.ofList [c]) 1).visited = [b] ∧
      ∀ hash, hash = b ↔ hash ∈ view.reach (HashSet.ofList [c]) a := by
  intro a b c view
  have outside : a ∉ HashSet.ofList [c] := by
    rw [HashSet.mem_ofList]
    decide
  have visited : (view.searchAfter a (HashSet.ofList [c]) 1).visited = [b] := by decide
  have uncut : (view.searchAfter a (HashSet.ofList [c]) 1).truncated = false := by decide
  obtain ⟨-, -, -, -, whole, cut⟩ := searchAfter_reaches view a (HashSet.ofList [c]) 1 outside
  have room : (view.reach (HashSet.ofList [c]) a).ncard ≤ 1 :=
    Nat.le_of_not_lt fun short => Bool.eq_false_iff.mp uncut (cut short).1
  refine ⟨outside, visited, fun hash => ?_⟩
  rw [← (whole room).2.1, visited, List.mem_singleton]

end GraphView

end HashLog
