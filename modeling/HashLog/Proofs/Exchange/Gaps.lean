import HashLog.Proofs.Exchange.Offers
import HashLog.Proofs.Graph.Lines
import HashLog.Proofs.Graph.Passages
/-!
What an offer sends where the log has no forks. A walk goes out of what the peer holds at a hash of
its frontier, and may come back only at another one, where it stops. So an offer that the limit does
not cut sends exactly the gaps of the peer: what it lacks of the runs here in which it holds something
(`mem_offer_send`).
-/
namespace HashLog

variable {records : Set Record} {shown peer : Finset Hash} {hash prev child : Hash}

/-! ## Ways out of a set -/

section Ways

variable {step : Hash → Hash → Prop} {barred : HashSet} {start held : Hash}

/-- A way out of a set leaves it somewhere for the last time. -/
theorem exists_way_out (path : Relation.ReflTransGen step held hash) (inside : held ∈ peer)
    (outside : hash ∉ peer) :
    ∃ last ∈ peer, Relation.TransGen (fun one next => step one next ∧ next ∉ peer) last hash := by
  induction path with
  | refl => exact absurd inside outside
  | @tail between hash _ onward ih =>
    by_cases within : between ∈ peer
    · exact ⟨between, within, .single ⟨onward, outside⟩⟩
    · obtain ⟨last, member, way⟩ := ih within
      exact ⟨last, member, way.tail ⟨onward, outside⟩⟩

/-- A way that is barred wherever it could come back stays outside. -/
theorem stays_out (leaves : ∀ next, step start next → next ∉ peer)
    (enters : ∀ one next, step one next → one ∉ peer → next ∈ peer → next = start ∨ next ∈ barred)
    (acyclic : ¬ Relation.TransGen step start start)
    (way : Relation.TransGen (fun one next => step one next ∧ next ∉ barred) start hash) :
    hash ∉ peer := by
  induction way with
  | single onward => exact leaves _ onward.1
  | tail way onward ih =>
    intro back
    rcases enters _ _ onward.1 ih back with rfl | stopped
    · exact acyclic (Relation.TransGen.mono (fun _ _ => And.left) _ _ (way.tail onward))
    · exact onward.2 stopped

end Ways

/-- Where links come into a set from an older record outside, a run of it begins. -/
theorem Consistent.isBegin_of_parent (consistent : Consistent records)
    (parent : Parent records shown prev child) (outside : prev ∉ peer) (inside : child ∈ peer) :
    IsBegin records peer child :=
  ⟨inside, fun _ names held => outside (consistent.names_unique names parent.2.2 ▸ held)⟩

/-- Where links go out of a set to a newer record outside, a run of it ends. -/
theorem Linear.isEnd_of_parent (linear : Linear records) (parent : Parent records shown prev child)
    (outside : child ∉ peer) (inside : prev ∈ peer) : IsEnd records peer prev :=
  ⟨inside, fun _ held names => outside (linear.next_unique names parent.2.2 ▸ held)⟩

namespace GraphView

variable {view : GraphView} {begins ends : List Hash} {terminals : HashSet} {limit : Nat}
  {start : Hash} {part offer : Offer}

/-! ## Walks from the frontier of the peer -/

theorem covered_of_sent (ran : view.offer begins ends limit = .ok offer) (sent : hash ∈ offer.send) :
    hash ∈ offer.covered := by
  obtain ⟨parts, rfl, each⟩ := parts_of_offer ran
  obtain ⟨part, member, sent⟩ := List.mem_flatMap.mp (mem_distinct.mp sent)
  refine List.mem_flatMap.mpr ⟨part, member, ?_⟩
  rcases (each part).mp member with ⟨start, -, -, walked⟩ | ⟨start, -, -, rfl⟩
  · unfold offerAhead at walked
    split at walked
    · obtain ⟨walk, -, rfl⟩ := map_eq_ok.mp walked
      exact (List.mem_append.mp sent).elim (List.mem_append_left _) fun reached =>
        List.mem_append_right _ (List.mem_filter.mp reached).1
    · obtain rfl := Except.ok.inj walked
      cases sent
  · unfold offerAfter at sent ⊢
    split at sent
    · rename_i visible
      rw [if_pos visible]
      exact List.mem_append_left _ sent
    · cases sent

/-- A walk is stopped by the hashes of a list other than its start. -/
private theorem mem_barred {hashes : List Hash} :
    hash ∈ (HashSet.ofList hashes).erase start ↔ hash ≠ start ∧ hash ∈ hashes := by
  rw [Std.TreeSet.mem_erase, ne_eq, Std.LawfulEqCmp.compare_eq_iff_eq, ne_eq, eq_comm, HashSet.mem_ofList]

variable (pictures : view.Pictures records shown) (room : shown.card ≤ limit)
include pictures

private theorem back_eq : view.Back terminals =
    fun child prev => Parent records shown prev child ∧ prev ∉ terminals :=
  funext₂ fun child prev => propext (and_congr_left' (pictures.precedes child prev))

private theorem onward_iff (visible : start ∈ shown) :
    Relation.TransGen (view.Onward terminals) start hash ↔ Relation.TransGen
      (fun prev child => Parent records shown prev child ∧ child ∉ terminals) start hash := by
  constructor
  · intro path
    induction path with
    | single onward => exact .single ⟨(pictures.follows _ _ visible).mp onward.1, onward.2⟩
    | tail _ onward ih =>
      obtain ⟨_, -, last⟩ := Relation.TransGen.tail'_iff.mp ih
      exact ih.tail ⟨(pictures.follows _ _ last.1.2.1).mp onward.1, onward.2⟩
  · refine Relation.TransGen.mono (fun prev child onward => ⟨?_, onward.2⟩) _ _
    exact (pictures.follows prev child onward.1.1).mpr onward.1

include room

/-- A part of an offer that starts at a begin of the peer. -/
private theorem mem_offerAhead_send (ran : view.offerAhead terminals limit start = .ok part) :
    hash ∈ part.send ↔ Relation.TransGen
      (fun child prev => Parent records shown prev child ∧ prev ∉ terminals.erase start) start hash := by
  unfold offerAhead at ran
  split at ran
  · obtain ⟨walk, walked, rfl⟩ := map_eq_ok.mp ran
    have outside : start ∉ terminals.erase start := by simp
    have uncut := searchAhead_whole outside walked
      (fun _ _ precedes => ((pictures.precedes _ _).mp precedes).1) room
    rw [← back_eq pictures, ← searchAhead_iff outside walked uncut, List.mem_append, List.mem_filter,
      Bool.and_eq_true, bne_iff_ne, Bool.not_eq_true', Bool.eq_false_iff, ne_eq, ne_eq,
      Std.TreeSet.contains_iff_mem]
  · rename_i hidden
    obtain rfl := Except.ok.inj ran
    refine ⟨nofun, fun path => ?_⟩
    obtain ⟨_, first, -⟩ := Relation.TransGen.head'_iff.mp path
    exact absurd ((pictures.contains start).mpr first.1.2.1) hidden

/-- A part of an offer that starts at an end of the peer. -/
private theorem mem_offerAfter_send (consistent : Consistent records) :
    hash ∈ (view.offerAfter terminals limit start).send ↔ Relation.TransGen
      (fun prev child => Parent records shown prev child ∧ child ∉ terminals.erase start) start hash := by
  unfold offerAfter
  split
  · rename_i contained
    have visible := (pictures.contains start).mp contained
    dsimp only
    rw [searchAfter_iff visible pictures.followed room (by simp), onward_iff pictures visible]
    refine and_iff_right_of_imp ?_
    rintro path rfl
    exact consistent.irrefl (Relation.TransGen.mono (fun _ _ => And.left) _ _ path)
  · rename_i hidden
    refine ⟨nofun, fun path => ?_⟩
    obtain ⟨_, first, -⟩ := Relation.TransGen.head'_iff.mp path
    exact absurd ((pictures.contains start).mpr first.1.1) hidden

/-! ## What is sent -/

omit room in
private theorem offerAhead_ok (consistent : Consistent records) :
    ∃ part, view.offerAhead terminals limit start = .ok part := by
  unfold offerAhead
  split
  · obtain ⟨walk, walked⟩ := searchAhead_ok start (terminals.erase start) limit (pictures.acyclic consistent)
    exact ⟨_, map_eq_ok.mpr ⟨walk, walked, rfl⟩⟩
  · exact ⟨_, rfl⟩

section Sent

variable (linear : Linear records) (frontier : FrontierOf records peer begins ends)
  (ran : view.offer begins ends limit = .ok offer)
include linear frontier ran

/-- A walk comes to nothing that the peer holds: wherever it could, the other half of the frontier stops
it. -/
private theorem gap_of_sent (sent : hash ∈ offer.send) :
    hash ∈ shown ∧ hash ∉ peer ∧ ∃ held ∈ peer, Joined records shown hash held := by
  have consistent := linear.toConsistent
  obtain ⟨parts, rfl, each⟩ := parts_of_offer ran
  obtain ⟨part, member, sent⟩ := List.mem_flatMap.mp (mem_distinct.mp sent)
  rcases (each part).mp member with ⟨start, listed, -, walked⟩ | ⟨start, listed, -, rfl⟩
  · have isBegin := (frontier.begins start).mp listed
    have way := (mem_offerAhead_send pictures room walked).mp sent
    have path := Relation.transGen_swap.mp (Relation.TransGen.mono (fun _ _ => And.left) _ _ way)
    obtain ⟨_, -, last⟩ := Relation.TransGen.tail'_iff.mp way
    refine ⟨last.1.1, stays_out ?_ ?_ ?_ way, start, isBegin.1, Or.inl path.to_reflTransGen⟩
    · exact fun next parent => isBegin.2 next parent.2.2
    -- a walk that came back would do so at an end of the peer, and every end but its start is barred
    · intro child prev parent outside inside
      have isEnd := linear.isEnd_of_parent parent outside inside
      exact or_iff_not_imp_left.mpr fun differs =>
        mem_barred.mpr ⟨differs, (frontier.ends prev).mpr isEnd⟩
    · exact fun cycle => consistent.irrefl (Relation.transGen_swap.mp cycle)
  · have isEnd := (frontier.ends start).mp listed
    have way := (mem_offerAfter_send pictures room consistent).mp sent
    have path := Relation.TransGen.mono (fun _ _ => And.left) _ _ way
    obtain ⟨_, -, last⟩ := Relation.TransGen.tail'_iff.mp way
    refine ⟨last.1.2.1, stays_out ?_ ?_ consistent.irrefl way, start, isEnd.1,
      Or.inr path.to_reflTransGen⟩
    · exact fun next parent held => isEnd.2 next held parent.2.2
    · intro prev child parent outside inside
      have isBegin := consistent.isBegin_of_parent parent outside inside
      exact or_iff_not_imp_left.mpr fun differs =>
        mem_barred.mpr ⟨differs, (frontier.begins child).mpr isBegin⟩

/-- Where a path from a record of the peer's leaves what the peer holds, a walk starts. -/
private theorem sent_of_gap {held : Hash} (member : held ∈ peer) (lacking : hash ∉ peer)
    (joined : Joined records shown hash held) : hash ∈ offer.send := by
  have consistent := linear.toConsistent
  obtain ⟨parts, rfl, each⟩ := parts_of_offer ran
  refine mem_distinct.mpr (List.mem_flatMap.mpr ?_)
  rcases joined with up | down
  · obtain ⟨start, inside, way⟩ := exists_way_out (Relation.reflTransGen_swap.mpr up) member lacking
    obtain ⟨first, out, -⟩ := Relation.TransGen.head'_iff.mp way
    have isBegin := consistent.isBegin_of_parent out.1 out.2 inside
    have unmatched : view.frontier.isBegin start = false := by
      rw [Bool.eq_false_iff, ne_eq, pictures.isBegin_iff]
      exact fun here => here.2 first out.1.2.2 out.1.1
    obtain ⟨part, walked⟩ := offerAhead_ok pictures consistent
    refine ⟨part, (each part).mpr (Or.inl ⟨start, (frontier.begins start).mpr isBegin, unmatched, walked⟩),
      (mem_offerAhead_send pictures room walked).mpr ?_⟩
    -- the way stays outside what the peer holds, and what bars a walk is held
    refine Relation.TransGen.mono (fun child prev step => ⟨step.1, fun barred => step.2 ?_⟩) _ _ way
    exact ((frontier.ends prev).mp (mem_barred.mp barred).2).1
  · obtain ⟨start, inside, way⟩ := exists_way_out down member lacking
    obtain ⟨first, out, -⟩ := Relation.TransGen.head'_iff.mp way
    have isEnd := linear.isEnd_of_parent out.1 out.2 inside
    have unmatched : view.frontier.isEnd start = false := by
      rw [Bool.eq_false_iff, ne_eq, pictures.isEnd_iff]
      exact fun here => here.2 first out.1.2.1 out.1.2.2
    refine ⟨_, (each _).mpr (Or.inr ⟨start, (frontier.ends start).mpr isEnd, unmatched, rfl⟩),
      (mem_offerAfter_send pictures room consistent).mpr ?_⟩
    refine Relation.TransGen.mono (fun prev child step => ⟨step.1, fun barred => step.2 ?_⟩) _ _ way
    exact ((frontier.begins child).mp (mem_barred.mp barred).2).1

/-- On logs without forks, an offer that the limit does not cut sends exactly what the peer lacks of
the runs here in which it holds something. -/
theorem mem_offer_send : hash ∈ offer.send ↔
    hash ∈ shown ∧ hash ∉ peer ∧ ∃ held ∈ peer, Joined records shown hash held := by
  constructor
  · exact gap_of_sent pictures room linear frontier ran
  · rintro ⟨-, lacking, held, member, joined⟩
    exact sent_of_gap pictures room linear frontier ran member lacking joined

end Sent

end GraphView

end HashLog
