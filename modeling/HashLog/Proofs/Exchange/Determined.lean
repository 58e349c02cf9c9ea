import HashLog.Proofs.Exchange.Plans
import HashLog.Proofs.Graph.Shown
/-!
What walks, offers and plans find is determined by the links that a view shows: it makes no
difference whether the view is of a graph in memory, of a store cut off at a number or of a snapshot,
nor whether the links form trees. The one question that views may answer differently, which records
name the null hash, is never asked (`afterFrom_eq`).
-/
namespace HashLog.GraphView.Shows

variable {view other : GraphView} {links : Edges} {hash start : Hash} {terminals seen : HashSet}
  {limit : Nat} {m : Message} {received : HashSet}

variable (shows : view.Shows links) (same : other.Shows links)
include shows same

theorem contains_eq : view.contains hash = other.contains hash :=
  Bool.eq_iff_iff.mpr ((shows.contains hash).trans (same.contains hash).symm)

theorem knownPrev_eq : view.knownPrev hash = other.knownPrev hash := by
  simp only [knownPrev, shows.prevHash, same.prevHash, shows.contains_eq same]

private theorem aheadFrom_eq {budget : Nat} {next : Hash} :
    view.aheadFrom terminals budget seen next = other.aheadFrom terminals budget seen next := by
  induction budget generalizing seen next with
  | zero =>
    unfold aheadFrom
    rw [shows.knownPrev_eq same]
  | succ budget ih =>
    unfold aheadFrom
    rw [shows.knownPrev_eq same]
    simp only [ih]

theorem searchAhead_eq :
    view.searchAhead start terminals limit = other.searchAhead start terminals limit := by
  simp only [searchAhead, shows.knownPrev_eq same, shows.aheadFrom_eq same]

/-- Walks toward newer records meet no null hash: whatever names a predecessor has a hash. -/
private theorem afterFrom_eq (proper : links.Proper) {fuel budget : Nat} {stack : List Hash}
    (nonNull : ∀ hash ∈ stack, hash ≠ Hash.null) :
    view.afterFrom terminals fuel budget seen stack =
      other.afterFrom terminals fuel budget seen stack := by
  induction fuel generalizing budget seen stack with
  | zero => rfl
  | succ fuel ih =>
    cases stack with
    | nil => rfl
    | cons current stack =>
      have rest : ∀ hash ∈ stack, hash ≠ Hash.null := fun hash member =>
        nonNull hash (List.mem_cons_of_mem _ member)
      have current := nonNull current List.mem_cons_self
      unfold afterFrom
      rw [shows.nextHashes _ current, same.nextHashes _ current]
      split
      · rw [ih rest]
      · dsimp only
        split
        · rfl
        · rw [ih fun hash member => ?_]
          rcases List.mem_append.mp member with new | old
          · have child := (expand_takes.fresh hash (List.mem_reverse.mp new)).1
            exact Edges.ne_null_of_mem proper (Edges.known_of_mem (Edges.mem_nextOf.mp child))
          · exact rest hash old

theorem searchAfter_eq (proper : links.Proper) (visible : view.contains start = true) :
    view.searchAfter start terminals limit = other.searchAfter start terminals limit := by
  have nonNull := Edges.ne_null_of_mem proper ((shows.contains start).mp visible)
  unfold searchAfter
  split
  · rfl
  · exact shows.afterFrom_eq same proper fun hash member => List.mem_singleton.mp member ▸ nonNull

private theorem componentFrom_eq (proper : links.Proper) {room : Nat} {addrs : List Hash} :
    view.componentFrom limit room seen addrs = other.componentFrom limit room seen addrs := by
  induction addrs generalizing room seen with
  | nil => rfl
  | cons addr rest ih =>
    unfold componentFrom
    rw [← shows.contains_eq same]
    split
    · rename_i visible
      have around : view.around addr limit = other.around addr limit := by
        simp only [GraphView.around, shows.searchAhead_eq same, shows.searchAfter_eq same proper visible]
      simp only [around, ih]
    · exact ih

theorem component_eq (proper : links.Proper) {addrs : List Hash} :
    view.component addrs limit = other.component addrs limit :=
  shows.componentFrom_eq same proper

/-! ## Offers and plans -/

theorem offer_eq (proper : links.Proper) {begins ends : List Hash} :
    view.offer begins ends limit = other.offer begins ends limit := by
  have isBegin : view.frontier.isBegin = other.frontier.isBegin := funext fun hash =>
    Bool.eq_iff_iff.mpr (shows.frontier.isBegin_iff.trans same.frontier.isBegin_iff.symm)
  have isEnd : view.frontier.isEnd = other.frontier.isEnd := funext fun hash =>
    Bool.eq_iff_iff.mpr (shows.frontier.isEnd_iff.trans same.frontier.isEnd_iff.symm)
  have ahead : view.offerAhead (HashSet.ofList ends) limit =
      other.offerAhead (HashSet.ofList ends) limit := funext fun start => by
    simp only [offerAhead, shows.contains_eq same, shows.searchAhead_eq same]
  have after : view.offerAfter (HashSet.ofList begins) limit =
      other.offerAfter (HashSet.ofList begins) limit := funext fun start => by
    unfold offerAfter
    rw [← shows.contains_eq same]
    split
    · rename_i visible
      rw [shows.searchAfter_eq same proper visible]
    · rfl
  simp only [offer, isBegin, isEnd, ahead, after]

theorem planFirst_eq (proper : links.Proper) : view.planFirst m limit = other.planFirst m limit := by
  simp only [planFirst, shows.offer_eq same proper]

theorem planSecond_eq (proper : links.Proper) :
    view.planSecond received m limit = other.planSecond received m limit := by
  simp only [planSecond, unreached, shows.offer_eq same proper, shows.component_eq same proper,
    shows.frontier.beginList_eq same.frontier, shows.frontier.endList_eq same.frontier]

theorem planThird_eq (proper : links.Proper) :
    view.planThird received m limit = other.planThird received m limit := by
  simp only [planThird, shows.component_eq same proper]

end HashLog.GraphView.Shows
