import HashLog.Proofs.Graph.Ancestry
import HashLog.Proofs.Graph.Passages
/-!
Components in views without cycles. A component is gathered from two walks for each visible address,
all of them under one limit. Each walk that the limit cuts has passed as many hashes as the limit
allows, and its start comes on top, so a cut walk alone fills the component
(`around_whole_or_over`): one that is not full misses nothing. What is found from an address comes
after the address itself (`component_ordered`).
-/
namespace HashLog

namespace GraphView

variable {view : GraphView} {limit room : Nat} {seen : HashSet} {addr start hash : Hash} {walk : Walk}
  {addrs items found before later : List Hash}

/-! ## Relatives of an address -/

/-- A visible record names a hash as its predecessor. -/
def NamedBy (view : GraphView) (prev child : Hash) : Prop :=
  view.contains child = true ∧ view.prevHash child = some prev

/-- The next hashes of a visible hash are those of the visible records that name it, in any order. -/
def ListsNamed (view : GraphView) : Prop :=
  ∀ prev, view.contains prev = true → ∀ child, child ∈ view.nextHashes prev ↔ view.NamedBy prev child

/-- A hash is the address, one of its known ancestors or one of its known descendants. -/
def Kin (view : GraphView) (addr hash : Hash) : Prop :=
  Relation.ReflTransGen view.Precedes addr hash ∨ Relation.ReflTransGen view.NamedBy addr hash

/-- The visible addresses with all their known ancestors and descendants. -/
def family (view : GraphView) (addrs : List Hash) : Set Hash :=
  {hash | ∃ addr ∈ addrs, view.contains addr = true ∧ view.Kin addr hash}

/-- Graphs and stores list what names a hash, as long as none of their records has the null hash. -/
theorem Shows.listsNamed {links : Edges} (shows : view.Shows links) (proper : links.Proper) :
    view.ListsNamed := by
  intro prev visible child
  have nonNull := Edges.ne_null_of_mem proper ((shows.contains prev).mp visible)
  rw [shows.nextHashes prev nonNull, Edges.mem_nextOf, NamedBy, shows.contains, shows.prevHash,
    Edges.prevOf_eq_some proper]
  exact ⟨fun link => ⟨Edges.known_of_mem link, link⟩, And.right⟩

/-- From a visible hash on, going from hashes to those listed is going from records to those that name
them. -/
theorem ListsNamed.follows_iff (lists : view.ListsNamed) (visible : view.contains start = true) :
    Relation.ReflTransGen view.Follows start hash ↔ Relation.ReflTransGen view.NamedBy start hash := by
  have shown : ∀ {hash}, Relation.ReflTransGen view.NamedBy start hash → view.contains hash = true := by
    intro hash path
    rcases path.cases_tail with rfl | ⟨prev, -, named⟩
    · exact visible
    · exact named.1
  constructor
  · intro path
    induction path with
    | refl => exact .refl
    | tail _ listed ih => exact .tail ih ((lists _ (shown ih) _).mp listed)
  · intro path
    induction path with
    | refl => exact .refl
    | tail up named ih => exact .tail ih ((lists _ (shown up) _).mpr named)

/-! ## What one address contributes -/

/-- A walk toward older records that is cut has passed as many records as the limit allows. -/
theorem searchAhead_cut (ran : view.searchAhead start ∅ limit = .ok walk) (cut : walk.truncated = true) :
    (start :: walk.visited).Nodup ∧ walk.visited.length = limit := by
  rcases searchAhead_still_or_stops ran with ⟨-, uncut, -⟩ | ⟨outside, passed, stop, ends⟩
  · exact absurd cut (by simp [uncut])
  · obtain ⟨passes, decided⟩ := ends.passes outside ran
    have short : limit < passed := by simpa [decided] using cut
    rw [Nat.min_eq_right (Nat.le_of_lt short)] at passes
    rw [passes]
    exact ⟨ends.nodup_ancestors (Nat.le_of_lt short), ends.length_ancestors (Nat.le_of_lt short)⟩

section Around

variable (lists : view.ListsNamed) (visible : view.contains addr = true)
  (ran : view.around addr limit = .ok found)
include lists visible ran

/-- What is found from a visible address is akin to it. -/
theorem kin_of_around (member : hash ∈ found) : view.Kin addr hash := by
  obtain ⟨ahead, walked, rfl⟩ := map_eq_ok.mp ran
  have older := searchAhead_ahead (by simp) walked
  have newer : view.Sweep ∅ limit _ [addr] (view.searchAfter addr ∅ limit) := searchAfter_sweeps (by simp)
  simp only [List.cons_append, List.mem_cons, List.mem_append, or_assoc] at member
  rcases member with rfl | passed | ended | passed
  · exact Or.inl .refl
  · exact Or.inl (older.reached hash (Or.inl passed))
  · exact Or.inl (older.reached hash (Or.inr ended))
  · exact Or.inr ((lists.follows_iff visible).mp (newer.descends passed).to_reflTransGen)

/-- All that is akin to a visible address is found from it, unless what is found exceeds the limit. -/
theorem around_whole_or_over : (∀ hash, view.Kin addr hash → hash ∈ found) ∨
    ∃ passed ⊆ found, passed.Nodup ∧ limit < passed.length := by
  obtain ⟨ahead, walked, rfl⟩ := map_eq_ok.mp ran
  have newer : view.Sweep ∅ limit _ [addr] (view.searchAfter addr ∅ limit) := searchAfter_sweeps (by simp)
  by_cases cutAhead : ahead.truncated = true
  · obtain ⟨nodup, length⟩ := searchAhead_cut walked cutAhead
    refine Or.inr ⟨addr :: ahead.visited, ?_, nodup, by simp [length]⟩
    rw [List.append_assoc]
    exact List.subset_append_left _ _
  by_cases cutAfter : (view.searchAfter addr ∅ limit).truncated = true
  · refine Or.inr ⟨addr :: (view.searchAfter addr ∅ limit).visited, ?_, ?_, ?_⟩
    · rw [List.cons_append, List.cons_append]
      exact List.cons_subset_cons addr (List.subset_append_right _ _)
    · exact List.nodup_cons.mpr ⟨fun passed => newer.ne_start passed rfl, newer.nodup⟩
    · simp [(newer.cut cutAfter).1]
  refine Or.inl fun hash kin => ?_
  simp only [List.cons_append, List.mem_cons, List.mem_append]
  by_cases same : hash = addr
  · exact Or.inl same
  rcases kin with up | down
  · have strict := (Relation.reflTransGen_iff_eq_or_transGen.mp up).resolve_left same
    have back : Relation.TransGen (view.Back ∅) addr hash :=
      Relation.TransGen.mono (fun _ _ step => ⟨step, by simp⟩) _ _ strict
    have passed := (searchAhead_iff (by simp) walked (Bool.eq_false_iff.mpr cutAhead)).mpr back
    exact Or.inr (Or.inl (passed.imp_right And.left))
  · have strict := (Relation.reflTransGen_iff_eq_or_transGen.mp
      ((lists.follows_iff visible).mpr down)).resolve_left same
    have onward : Relation.TransGen (view.Onward ∅) addr hash :=
      Relation.TransGen.mono (fun _ _ step => ⟨step, by simp⟩) _ _ strict
    exact Or.inr (Or.inr ((newer.mem_visited_iff (Bool.eq_false_iff.mpr cutAfter)).mpr ⟨same, onward⟩))

end Around

/-! ## What all of them contribute -/

section Component

variable (lists : view.ListsNamed) (ran : view.component addrs limit = .ok items)
include lists ran

theorem mem_family_of_component (item : hash ∈ items) : hash ∈ view.family addrs := by
  obtain ⟨-, addr, member, visible, found, around, listed⟩ := (component_collects ran).fresh hash item
  exact ⟨addr, member, visible, kin_of_around lists visible around listed⟩

/-- A component that is not full misses nothing: no walk for it was cut. -/
theorem component_of_family (acyclic : ∀ hash, ¬ Relation.TransGen view.Precedes hash hash)
    (room : items.length < limit) (kin : hash ∈ view.family addrs) : hash ∈ items := by
  obtain ⟨addr, member, visible, kin⟩ := kin
  obtain ⟨ahead, walked⟩ := searchAhead_ok addr ∅ limit acyclic
  have around : view.around addr limit = .ok _ := map_eq_ok.mpr ⟨ahead, walked, rfl⟩
  have gathered : ∀ hash ∈ addr :: ahead.visited ++ ahead.localEnds ++
      (view.searchAfter addr ∅ limit).visited, hash ∈ items := fun hash listed =>
    ((component_collects ran).whole room hash ⟨addr, member, visible, _, around, listed⟩).resolve_left
      (by simp)
  rcases around_whole_or_over lists visible around with whole | ⟨passed, part, nodup, more⟩
  · exact gathered hash (whole hash kin)
  · have fits := (List.subperm_of_subset nodup fun hash listed => gathered hash (part listed)).length_le
    omega

/-- A component for which the limit has room is the whole family. -/
theorem mem_component_iff_family (acyclic : ∀ hash, ¬ Relation.TransGen view.Precedes hash hash)
    (room : (view.family addrs).ncard ≤ limit) : hash ∈ items ↔ hash ∈ view.family addrs := by
  refine ⟨mem_family_of_component lists ran, fun kin => ?_⟩
  by_cases less : items.length < limit
  · exact component_of_family lists ran acyclic less kin
  -- a full component of members of the family, which are no more, is all of it
  have inside : {hash | hash ∈ items} ⊆ view.family addrs := fun _ => mem_family_of_component lists ran
  have number : {hash | hash ∈ items}.ncard = items.length := by
    rw [← List.coe_toFinset, Set.ncard_coe_finset,
      List.toFinset_card_of_nodup (component_collects ran).nodup]
  have same := Set.eq_of_subset_of_ncard_le inside (by omega) (Set.toFinite _)
  exact (Set.ext_iff.mp same hash).mpr kin

end Component

/-! ## The order of a component -/

/-- A hash is found from a visible address that is the hash itself or was gathered before it. -/
def FoundBehind (view : GraphView) (limit : Nat) (addrs : List Hash) (seen : HashSet) (before : List Hash)
    (hash : Hash) : Prop :=
  ∃ addr ∈ addrs, view.contains addr = true ∧
    (∃ found, view.around addr limit = .ok found ∧ hash ∈ found) ∧
    (hash = addr ∨ addr ∈ seen ∨ addr ∈ before)

/-- What is found from one address is gathered behind it. -/
private theorem foundBehind_gather {rest : List Hash} (visible : view.contains addr = true)
    (around : view.around addr limit = .ok found)
    (split : (gather room seen found).items = before ++ hash :: later) :
    view.FoundBehind limit (addr :: rest) seen before hash := by
  have gathered : (gather room seen found).From room seen found := gather_from
  have item := split ▸ List.mem_append_right before (List.mem_cons_self (a := hash) (l := later))
  refine ⟨addr, List.mem_cons_self, visible, ⟨found, around, (gathered.fresh hash item).1⟩, ?_⟩
  obtain ⟨ahead, -, rfl⟩ := map_eq_ok.mp around
  cases room with
  | zero => simp [gather] at split
  | succ room =>
    by_cases old : addr ∈ seen
    · exact Or.inr (Or.inl old)
    · simp only [List.cons_append, gather, Std.TreeSet.contains_iff_mem, old, ↓reduceIte] at split
      cases before with
      | nil => exact Or.inl (List.cons.inj split).1.symm
      | cons first before => exact Or.inr (Or.inr ((List.cons.inj split).1 ▸ List.mem_cons_self))

private theorem componentFrom_ordered (ran : view.componentFrom limit room seen addrs = .ok items)
    (split : items = before ++ hash :: later) : view.FoundBehind limit addrs seen before hash := by
  induction addrs generalizing room seen items before with
  | nil =>
    obtain rfl : [] = items := Except.ok.inj ran
    simp at split
  | cons addr rest ih =>
    unfold componentFrom at ran
    by_cases visible : view.contains addr = true
    · rw [if_pos visible] at ran
      cases around : view.around addr limit with
      | error cycle => simp [around] at ran
      | ok found =>
        simp only [around] at ran
        split at ran
        · obtain rfl := Except.ok.inj ran
          exact foundBehind_gather visible around split
        · obtain ⟨more, others, rfl⟩ := map_eq_ok.mp ran
          rcases split_append split with ⟨between, own⟩ | ⟨between, rfl, further⟩
          · exact foundBehind_gather visible around own
          · have gathered : (gather room seen found).From room seen found := gather_from
            obtain ⟨other, member, shown, found, place⟩ := ih others further
            refine ⟨other, List.mem_cons_of_mem _ member, shown, found, ?_⟩
            rw [gathered.marked] at place
            rw [List.mem_append]
            tauto
    · rw [if_neg visible] at ran
      obtain ⟨other, member, found⟩ := ih ran split
      exact ⟨other, List.mem_cons_of_mem _ member, found⟩

/-- A hash stands in a component behind an address from which it is found, unless it is that address. -/
theorem component_ordered (ran : view.component addrs limit = .ok items)
    (split : items = before ++ hash :: later) : view.FoundBehind limit addrs ∅ before hash :=
  componentFrom_ordered ran split

/-- The first visible address is gathered first. -/
theorem component_head? (room : 0 < limit) (ran : view.component addrs limit = .ok items) :
    items.head? = addrs.find? view.contains := by
  induction addrs with
  | nil =>
    obtain rfl : [] = items := Except.ok.inj ran
    rfl
  | cons addr rest ih =>
    by_cases visible : view.contains addr = true
    · obtain ⟨later, rfl⟩ := component_first visible room ran
      rw [List.find?_cons_of_pos visible, List.head?_cons]
    · rw [component, componentFrom, if_neg visible] at ran
      rw [List.find?_cons_of_neg visible, ih ran]

/-- In a view without cycles a component of at most `limit` hashes is gathered, each of them once, from
the visible addresses and all their known ancestors and descendants. It leaves one of these out only if
it is full, so it is all of them if the limit allows. What is akin to one visible address alone stands
behind it, and the first visible address stands first. -/
theorem component_complete_unless_full (view : GraphView) (addrs : List Hash) (limit : Nat)
    (acyclic : ∀ hash, ¬ Relation.TransGen view.Precedes hash hash) (lists : view.ListsNamed) :
    ∃ items, view.component addrs limit = .ok items ∧
      items.length ≤ limit ∧ items.Nodup ∧ (∀ hash ∈ items, hash ∈ view.family addrs) ∧
      (∀ hash ∈ view.family addrs, hash ∉ items → items.length = limit) ∧
      ((view.family addrs).ncard ≤ limit → ∀ hash, hash ∈ items ↔ hash ∈ view.family addrs) ∧
      (∀ addr ∈ addrs, view.contains addr = true → ∀ before hash later,
        items = before ++ hash :: later → hash ∉ addrs → view.Kin addr hash →
        (∀ other ∈ addrs, view.contains other = true → view.Kin other hash → other = addr) →
        addr ∈ before) ∧
      (0 < limit → items.head? = addrs.find? view.contains) := by
  obtain ⟨items, ran⟩ := component_ok addrs limit acyclic
  have collects := component_collects ran
  refine ⟨items, ran, collects.length_le, collects.nodup, fun _ => mem_family_of_component lists ran, ?_,
    fun room hash => mem_component_iff_family lists ran acyclic room, ?_, fun room => component_head? room ran⟩
  · intro hash kin left
    have length := collects.length_le
    by_contra differs
    exact left (component_of_family lists ran acyclic (by omega) kin)
  · intro addr _ _ before hash later split unasked _ only
    obtain ⟨other, member, visible, ⟨found, around, listed⟩, place⟩ := component_ordered ran split
    obtain rfl := only other member visible (kin_of_around lists visible around listed)
    rcases place with rfl | seen | earlier
    · exact absurd member unasked
    · simp at seen
    · exact earlier

/-- A fork of which one branch does not fit any more, asked for with an unknown hash and a repeated one. -/
theorem component_complete_unless_full_of_fork :
    let a : Hash := ⟨.fill 32 1⟩
    let b : Hash := ⟨.fill 32 2⟩
    let c : Hash := ⟨.fill 32 3⟩
    let d : Hash := ⟨.fill 32 4⟩
    let view := (LogGraph.ofEdges [(a, .null), (b, a), (c, a), (d, b)]).view
    let addrs := [⟨.fill 32 9⟩, b, c, b]
    (∀ hash, ¬ Relation.TransGen view.Precedes hash hash) ∧ view.ListsNamed ∧
      view.component addrs 3 = .ok [b, a, d] ∧ c ∈ view.family addrs ∧ a ∈ view.family addrs ∧
      3 < (view.family addrs).ncard := by
  intro a b c d view addrs
  let links : Edges := [(a, .null), (b, a), (c, a), (d, b)]
  have proper : links.Proper := ⟨by decide, by decide⟩
  have shows : view.Shows links := (LogGraph.holds_ofEdges proper).shows
  have lists := shows.listsNamed proper
  let height (hash : Hash) : Nat := if hash = d then 3 else if hash = a then 1 else 2
  have climbs : ∀ child prev, view.Precedes child prev → height prev < height child := by
    intro child prev precedes
    have recorded : view.prevHash child = some prev ∧ prev ≠ .null := by
      unfold Precedes knownPrev at precedes
      grind [Hash.isNull_eq_true]
    rw [shows.prevHash, Edges.prevOf_eq_some proper] at recorded
    obtain ⟨link, nonNull⟩ := recorded
    simp only [links, List.mem_cons, Prod.mk.injEq, List.not_mem_nil, or_false] at link
    rcases link with ⟨rfl, rfl⟩ | ⟨rfl, rfl⟩ | ⟨rfl, rfl⟩ | ⟨rfl, rfl⟩
    · exact absurd rfl nonNull
    all_goals decide
  have acyclic : ∀ hash, ¬ Relation.TransGen view.Precedes hash hash := by
    have higher : ∀ child prev, Relation.TransGen view.Precedes child prev → height prev < height child := by
      intro child prev path
      induction path with
      | single step => exact climbs _ _ step
      | tail _ step ih => exact Nat.lt_trans (climbs _ _ step) ih
    exact fun hash path => Nat.lt_irrefl _ (higher hash hash path)
  have ran : view.component addrs 3 = .ok [b, a, d] := by decide +kernel
  obtain ⟨items, found, -, -, inside, -, all, -⟩ := component_complete_unless_full view addrs 3 acyclic lists
  obtain rfl := Except.ok.inj (found.symm.trans ran)
  have asked : c ∈ view.family addrs := ⟨c, by decide, by decide +kernel, Or.inl .refl⟩
  refine ⟨acyclic, lists, ran, asked, inside a (by decide), Nat.lt_of_not_le fun room => ?_⟩
  exact absurd ((all room c).mpr asked) (by decide)

end GraphView

end HashLog
