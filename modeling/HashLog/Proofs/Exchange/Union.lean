import HashLog.Proofs.Exchange.Runs
/-!
One exchange brings both sides to the union. What the receiver does not send in phase two ends in a
hash of its frontier that the initiator lacks and asks for; what the initiator does not send along
the walks ends in a hash of its own frontier that no walk reached, whose component it sends whole. So
nothing is left out where no limit cuts a walk and no budget a list (`Conveyed`), whatever either
side writes in the meantime.
-/
namespace HashLog

/-- The hashes of a log as a set. -/
def hashSet (log : List Record) : Finset Hash := (hashesIn log).toFinset

/-- The begins and the ends of what is shown. -/
noncomputable def frontierSet (records : Set Record) (shown : Finset Hash) : Finset Hash :=
  open Classical in shown.filter fun hash => IsBegin records shown hash ∨ IsEnd records shown hash

variable {records : Set Record} {near far two three four : List Record} {wanted : List Hash}
  {hash : Hash}

@[simp] theorem mem_hashSet : hash ∈ hashSet near ↔ hash ∈ hashesIn near := List.mem_toFinset

theorem mem_frontierSet {shown : Finset Hash} : hash ∈ frontierSet records shown ↔
    IsBegin records shown hash ∨ IsEnd records shown hash := by
  classical
  rw [frontierSet, Finset.mem_filter]
  exact ⟨And.right, fun listed => ⟨listed.elim And.left And.left, listed⟩⟩

theorem frontierSet_subset {shown : Finset Hash} : frontierSet records shown ⊆ shown :=
  fun _ member => (mem_frontierSet.mp member).elim And.left And.left

theorem hashSet_mono (subset : near ⊆ far) : hashSet near ⊆ hashSet far := fun hash member => by
  obtain ⟨r, listed, same⟩ := mem_hashesIn.mp (mem_hashSet.mp member)
  exact mem_hashSet.mpr (mem_hashesIn.mpr ⟨r, subset listed, same⟩)

/-- What an exchange conveys when nothing is cut: `two`, `three` and `four` are the records of its
later phases, and `wanted` the hashes asked for. -/
structure Conveyed (records : Set Record) (near far two three four : List Record)
    (wanted : List Hash) : Prop where
  second : ∀ hash ∈ hashesIn two, hash ∈ hashesIn far
  raises : Raises records (hashSet far) (hashSet near) (hashesIn two)
  third : ∀ hash ∈ hashesIn three, hash ∈ hashesIn near ∨ hash ∈ hashesIn two
  whole : ∀ hash ∈ hashesIn near, hash ∈ hashesIn far ∨ hash ∈ hashesIn two ∨ hash ∈ hashesIn three
  asked : ∀ last, IsEnd records (hashSet far) last → last ∉ hashesIn near → last ∉ hashesIn two →
    last ∈ wanted
  answered : ∀ last ∈ wanted, last ∉ hashesIn three → last ∈ hashesIn far → ∀ hash,
    Leads records (hashSet (addRecords far three)) hash last → hash ∉ hashesIn three →
      hash ∈ hashesIn four
  fourth : ∀ hash ∈ hashesIn four, hash ∈ hashesIn far

/-- What the initiator is not sent in phase two, it asks for or gets with what it asks for. -/
theorem Conveyed.initiator (conveyed : Conveyed records near far two three four wanted)
    (consistent : Consistent records) (member : hash ∈ hashesIn far) :
    hash ∈ hashesIn near ∨ hash ∈ hashesIn two ∨ hash ∈ hashesIn four := by
  by_contra beyond
  obtain ⟨lacking, unsent, unanswered⟩ := not_or.mp beyond |>.imp_right not_or.mp
  obtain ⟨last, path, isEnd, absent, left⟩ := conveyed.raises.exists_end_beyond consistent
    (mem_hashSet.mpr member) (fun held => lacking (mem_hashSet.mp held)) unsent
  have absent : last ∉ hashesIn near := fun held => absent (mem_hashSet.mpr held)
  have grown : hashSet far ⊆ hashSet (addRecords far three) := fun hash old =>
    mem_hashSet.mpr (hashesIn_addRecords.mpr (Or.inl (mem_hashSet.mp old)))
  have notBack : ∀ hash, hash ∉ hashesIn near → hash ∉ hashesIn two → hash ∉ hashesIn three :=
    fun hash lacking unsent back => (conveyed.third hash back).elim lacking unsent
  exact unanswered (conveyed.answered last (conveyed.asked last isEnd absent left)
    (notBack last absent left) (mem_hashSet.mp isEnd.1) hash (path.mono grown)
    (notBack hash lacking unsent))

/-- The receiver gets all that the initiator showed. -/
theorem Conveyed.receiver (conveyed : Conveyed records near far two three four wanted)
    (member : hash ∈ hashesIn near) : hash ∈ hashesIn far ∨ hash ∈ hashesIn three :=
  (conveyed.whole hash member).elim Or.inl fun sent =>
    sent.elim (fun back => Or.inl (conveyed.second hash back)) Or.inr

@[simp] theorem Engine.mem_hashesOf : hash ∈ Engine.hashesOf near ↔ hash ∈ hashesIn near := by
  simp [Engine.hashesOf, hashesIn]

/-- An answer of which nothing was cut: it carries a whole plan, made under a limit that no walk over
the view can reach. -/
structure Message.AnswersWhole (m : Message) (records : Set Record) (shown : Finset Hash)
    (view : GraphView) (planning : Nat → Except Cycle Plan) (plan : Plan) : Prop where
  pictures : view.Pictures records shown
  planned : ∃ limit, shown.card ≤ limit ∧ planning limit = .ok plan
  sent : hashesIn m.records = plan.send
  asked : m.wanted = plan.wanted

/-- Answers of which nothing was cut convey all. -/
theorem conveyed_of_whole {first second third fourth : Message} {view₂ view₃ view₄ : GraphView}
    {plan₂ plan₃ plan₄ : Plan} (consistent : Consistent records)
    (frontier₁ : FrontierOf records (hashSet near) first.begins first.ends)
    (whole₂ : second.AnswersWhole records (hashSet far) view₂ (view₂.planFirst first) plan₂)
    (frontier₂ : FrontierOf records (hashSet far) second.begins second.ends)
    (whole₃ : third.AnswersWhole records (hashSet (addRecords near second.records)) view₃
      (view₃.planSecond (Engine.hashesOf second.records) second) plan₃)
    (whole₄ : fourth.AnswersWhole records (hashSet (addRecords far third.records)) view₄
      (view₄.planThird (Engine.hashesOf third.records) third) plan₄) :
    Conveyed records near far second.records third.records fourth.records third.wanted := by
  obtain ⟨pictures₂, ⟨limit₂, large₂, planned₂⟩, sent₂, -⟩ := whole₂
  obtain ⟨pictures₃, ⟨limit₃, large₃, planned₃⟩, sent₃, wanted₃⟩ := whole₃
  obtain ⟨pictures₄, ⟨limit₄, large₄, planned₄⟩, sent₄, -⟩ := whole₄
  have spec₂ := Plan.first_of_planned pictures₂ consistent frontier₁ planned₂
  have spec₃ := Plan.second_of_planned pictures₃ consistent frontier₂ planned₃
  have spec₄ := Plan.third_of_planned pictures₄ consistent planned₄
  refine ⟨?_, ?_, ?_, ?_, ?_, ?_, ?_⟩
  · intro hash sent
    exact mem_hashSet.mp (spec₂.sends.drawn hash (sent₂ ▸ sent))
  · rw [sent₂]
    exact GraphView.planFirst_raises pictures₂ consistent frontier₁ large₂ planned₂
  · intro hash sent
    exact hashesIn_addRecords.mp (mem_hashSet.mp (spec₃.sends.drawn hash (sent₃ ▸ sent)))
  · intro hash member
    have goes := GraphView.planSecond_whole pictures₃ consistent frontier₂ large₃ planned₃
      (mem_hashSet.mpr (hashesIn_addRecords.mpr (Or.inl member)))
    rwa [mem_hashSet, Engine.mem_hashesOf, ← sent₃] at goes
  · intro last isEnd lacking unsent
    rw [wanted₃]
    refine (spec₃.asks.wanted last).mpr ⟨Or.inr isEnd, fun held => ?_⟩
    exact (hashesIn_addRecords.mp (mem_hashSet.mp held)).elim lacking unsent
  · intro last asked new member hash path unsent
    rw [sent₄]
    exact GraphView.planThird_whole pictures₄ consistent large₄ planned₄ asked
      (fun back => new (Engine.mem_hashesOf.mp back))
      (mem_hashSet.mpr (hashesIn_addRecords.mpr (Or.inl member))) path
      (fun back => unsent (Engine.mem_hashesOf.mp back))
  · intro hash sent
    have drawn := spec₄.sends.drawn hash (sent₄ ▸ sent)
    exact (hashesIn_addRecords.mp (mem_hashSet.mp drawn)).resolve_right fun back =>
      spec₄.sends.unsent hash (sent₄ ▸ sent) (Engine.mem_hashesOf.mpr back)

/-- A budget that no list can reach cuts none. -/
theorem Message.Answers.whole {m : Message} {settings : Settings} {phase : Phase}
    {shown : Finset Hash} {view : GraphView} {planning : Nat → Except Cycle Plan} {plan : Plan}
    {received : HashSet} (answers : m.Answers records settings phase shown view planning plan)
    (sends : plan.Sends shown received) (large : shown.card ≤ settings.traversalLimit)
    (many : shown.card ≤ settings.recordBudget) (asks : plan.wanted.Nodup)
    (bound : Finset Hash) (within : ∀ hash ∈ plan.wanted, hash ∈ bound)
    (few : bound.card ≤ settings.wantedBudget) :
    m.AnswersWhole records shown view planning plan := by
  have take_all : ∀ {hashes : List Hash} {bound : Finset Hash} {budget : Nat}, hashes.Nodup →
      (∀ hash ∈ hashes, hash ∈ bound) → bound.card ≤ budget → hashes.take budget = hashes := by
    intro hashes bound budget nodup subset few
    refine List.take_of_length_le (Nat.le_trans ?_ few)
    rw [← List.toFinset_card_of_nodup nodup]
    exact Finset.card_le_card fun hash member => subset hash (List.mem_toFinset.mp member)
  exact ⟨answers.pictures, ⟨_, large, answers.planned⟩,
    answers.carries.sent.trans (take_all sends.distinct_send sends.drawn many),
    answers.carries.asked.trans (take_all asks within few)⟩

namespace Exchange

variable {x : Exchange} {initiator receiver : Settings}

/-- The messages carry nothing that is in neither log, and nothing goes back. -/
theorem Between.drawn (between : x.Between records initiator receiver near far)
    (consistent : Consistent records) :
    (∀ hash ∈ hashesIn x.second.records, hash ∈ hashesIn far) ∧
    (∀ hash ∈ hashesIn x.third.records, hash ∈ hashesIn near ∨ hash ∈ hashesIn x.second.records) ∧
    ∀ hash ∈ hashesIn x.fourth.records, hash ∈ hashesIn far := by
  obtain ⟨-, frontier₁, ⟨view₂, plan₂, pictures₂, planned₂, carries₂⟩, frontier₂,
    ⟨view₃, plan₃, pictures₃, planned₃, carries₃⟩, ⟨view₄, plan₄, pictures₄, planned₄, carries₄⟩⟩ := between
  have first := Plan.first_of_planned pictures₂ consistent frontier₁ planned₂
  have second := Plan.second_of_planned pictures₃ consistent frontier₂ planned₃
  have third := Plan.third_of_planned pictures₄ consistent planned₄
  refine ⟨?_, ?_, ?_⟩
  · intro hash sent
    exact mem_hashSet.mp (first.sends.drawn hash (carries₂.sent_subset sent))
  · intro hash sent
    exact hashesIn_addRecords.mp
      (mem_hashSet.mp (second.sends.drawn hash (carries₃.sent_subset sent)))
  · intro hash sent
    have sent := carries₄.sent_subset sent
    exact (hashesIn_addRecords.mp (mem_hashSet.mp (third.sends.drawn hash sent))).resolve_right
      fun back => third.sends.unsent hash sent (Engine.mem_hashesOf.mpr back)

/-- The answers of an exchange between two logs of which nothing was cut. -/
structure Whole (x : Exchange) (records : Set Record) (near far : List Record) : Prop where
  first : FrontierOf records (hashSet near) x.first.begins x.first.ends
  second : ∃ view plan, x.second.AnswersWhole records (hashSet far) view (view.planFirst x.first) plan
  frontier : FrontierOf records (hashSet far) x.second.begins x.second.ends
  third : ∃ view plan, x.third.AnswersWhole records (hashSet (addRecords near x.second.records)) view
    (view.planSecond (Engine.hashesOf x.second.records) x.second) plan
  fourth : ∃ view plan, x.fourth.AnswersWhole records (hashSet (addRecords far x.third.records)) view
    (view.planThird (Engine.hashesOf x.third.records) x.third) plan

theorem Whole.conveyed (whole : x.Whole records near far) (consistent : Consistent records) :
    Conveyed records near far x.second.records x.third.records x.fourth.records x.third.wanted := by
  obtain ⟨first, ⟨_, _, second⟩, frontier, ⟨_, _, third⟩, ⟨_, _, fourth⟩⟩ := whole
  exact conveyed_of_whole consistent first second frontier third fourth

/-- Limits and budgets as large as the two logs together cut nothing. -/
theorem Between.whole (between : x.Between records initiator receiver near far)
    (consistent : Consistent records)
    (initiatorLimit : (hashSet (near ++ far)).card ≤ initiator.traversalLimit)
    (receiverLimit : (hashSet (near ++ far)).card ≤ receiver.traversalLimit)
    (initiatorRecords : (hashSet (near ++ far)).card ≤ initiator.recordBudget)
    (receiverRecords : (hashSet (near ++ far)).card ≤ receiver.recordBudget)
    (lacked : (frontierSet records (hashSet far) \ hashSet near).card ≤ initiator.wantedBudget) :
    x.Whole records near far := by
  obtain ⟨drawn₂, drawn₃, -⟩ := between.drawn consistent
  obtain ⟨-, frontier₁, ⟨view₂, plan₂, answers₂⟩, frontier₂, ⟨view₃, plan₃, answers₃⟩,
    ⟨view₄, plan₄, answers₄⟩⟩ := between
  have spec₂ := Plan.first_of_planned answers₂.pictures consistent frontier₁ answers₂.planned
  have spec₃ := Plan.second_of_planned answers₃.pictures consistent frontier₂ answers₃.planned
  have spec₄ := Plan.third_of_planned answers₄.pictures consistent answers₄.planned
  -- all that either side can show is of the two logs
  have within : ∀ shown : List Record, (∀ hash ∈ hashesIn shown, hash ∈ hashesIn near ∨
      hash ∈ hashesIn far) → (hashSet shown).card ≤ (hashSet (near ++ far)).card := by
    refine fun shown both => Finset.card_le_card ?_
    intro hash member
    rw [mem_hashSet, hashesIn_append, List.mem_append]
    exact both hash (mem_hashSet.mp member)
  have shown₂ := within far fun hash member => Or.inr member
  have shown₃ := within (addRecords near x.second.records) fun hash member =>
    (hashesIn_addRecords.mp member).imp_right (drawn₂ hash)
  have shown₄ := within (addRecords far x.third.records) fun hash member =>
    (hashesIn_addRecords.mp member).elim Or.inr fun new => (drawn₃ hash new).imp_right (drawn₂ hash)
  refine ⟨frontier₁, ⟨view₂, plan₂, ?_⟩, frontier₂, ⟨view₃, plan₃, ?_⟩, view₄, plan₄, ?_⟩
  · exact answers₂.whole spec₂.sends (Nat.le_trans shown₂ receiverLimit)
      (Nat.le_trans shown₂ receiverRecords) (by rw [spec₂.asks]; exact List.nodup_nil) ∅
      (by simp [spec₂.asks]) (Nat.zero_le _)
  · refine answers₃.whole spec₃.sends (Nat.le_trans shown₃ initiatorLimit)
      (Nat.le_trans shown₃ initiatorRecords) spec₃.asks.distinct_wanted _ (fun hash asked => ?_) lacked
    obtain ⟨listed, absent⟩ := (spec₃.asks.wanted hash).mp asked
    refine Finset.mem_sdiff.mpr ⟨mem_frontierSet.mpr listed, fun held => absent ?_⟩
    exact mem_hashSet.mpr (hashesIn_addRecords.mpr (Or.inl (mem_hashSet.mp held)))
  · exact answers₄.whole spec₄.sends (Nat.le_trans shown₄ receiverLimit)
      (Nat.le_trans shown₄ receiverRecords) (by rw [spec₄.asks]; exact List.nodup_nil) ∅
      (by simp [spec₄.asks]) (Nat.zero_le _)

end Exchange

/-- A record of a consistent set is in a log if its hash is. -/
theorem Consistent.mem_iff (consistent : Consistent records) {log : List Record}
    (drawn : ∀ r ∈ log, r ∈ records) {r : Record} (member : r ∈ records) :
    r ∈ log ↔ r.hash ∈ hashesIn log := by
  refine ⟨fun listed => mem_hashesIn.mpr ⟨r, listed, rfl⟩, ?_⟩
  intro known
  obtain ⟨s, listed, same⟩ := mem_hashesIn.mp known
  exact consistent.unique s (drawn s listed) r member same ▸ listed

/-- A log of hashes that one of two others holds is part of the two. -/
theorem Consistent.subset_append (consistent : Consistent records) {log : List Record}
    (logDrawn : ∀ r ∈ log, r ∈ records) (nearDrawn : ∀ r ∈ near, r ∈ records)
    (farDrawn : ∀ r ∈ far, r ∈ records)
    (hashes : ∀ hash ∈ hashesIn log, hash ∈ hashesIn near ∨ hash ∈ hashesIn far) : log ⊆ near ++ far := by
  intro r listed
  have member := logDrawn r listed
  rw [List.mem_append, consistent.mem_iff nearDrawn member, consistent.mem_iff farDrawn member]
  exact hashes r.hash (mem_hashesIn.mpr ⟨r, listed, rfl⟩)

/-- Logs of the same hashes hold the same records. -/
private theorem Consistent.mem_union_iff (consistent : Consistent records) {log more : List Record}
    (logDrawn : ∀ r ∈ log, r ∈ records) (nearDrawn : ∀ r ∈ near, r ∈ records)
    (farDrawn : ∀ r ∈ far, r ∈ records) (moreDrawn : ∀ r ∈ more, r ∈ records)
    (hashes : ∀ hash, hash ∈ hashesIn log ↔
      hash ∈ hashesIn near ∨ hash ∈ hashesIn far ∨ hash ∈ hashesIn more) (r : Record) :
    r ∈ log ↔ r ∈ near ∨ r ∈ far ∨ r ∈ more := by
  by_cases member : r ∈ records
  · rw [consistent.mem_iff logDrawn member, consistent.mem_iff nearDrawn member,
      consistent.mem_iff farDrawn member, consistent.mem_iff moreDrawn member, hashes]
  · refine ⟨fun listed => absurd (logDrawn r listed) member, ?_⟩
    rintro (listed | listed | listed)
    · exact absurd (nearDrawn r listed) member
    · exact absurd (farDrawn r listed) member
    · exact absurd (moreDrawn r listed) member

/-- One exchange between two engines in any reachable states brings each of them all that the other
one's snapshot showed, and nothing besides what it writes itself. The limits on walks and records are
at least the number of records that both snapshots show, and the initiator can ask for every
frontier hash of the receiver that it lacks. -/
theorem exchange_reaches_union {a b : Engine} {aName bName : NodeId} {t : Times} {w : Meanwhile}
    (consistent : Consistent records) (aReached : a.Reachable records) (bReached : b.Reachable records)
    (aReady : a.Ready t.start bName) (bReady : b.Ready t.first aName)
    (prompt : t.Prompt a.settings b.settings) (drawn : w.DrawnFrom records)
    {near far : List Record} (nearIs : near = a.store.log)
    (farIs : far = (b.writeAll w.receiverFirst).store.log)
    (initiatorLimit : (hashSet (near ++ far)).card ≤ a.settings.traversalLimit)
    (receiverLimit : (hashSet (near ++ far)).card ≤ b.settings.traversalLimit)
    (initiatorRecords : (hashSet (near ++ far)).card ≤ a.settings.recordBudget)
    (receiverRecords : (hashSet (near ++ far)).card ≤ b.settings.recordBudget)
    (lacked : (frontierSet records (hashSet far) \ hashSet near).card ≤ a.settings.wantedBudget) :
    ∃ x : Exchange, x.Runs aName bName t w a b ∧
      (∀ r, r ∈ x.initiator.store.log ↔ r ∈ near ∨ r ∈ far ∨ r ∈ w.initiator) ∧
      (∀ r, r ∈ x.receiver.store.log ↔ r ∈ near ∨ r ∈ far ∨ r ∈ w.receiver) ∧
      x.initiator.peerState bName = .resting ∧ x.receiver.peerState aName = .thirdReceived := by
  obtain ⟨ca, aSound⟩ := aReached.sound consistent
  obtain ⟨cb, bSound⟩ := bReached.sound consistent
  obtain ⟨cb₀, bGrows₀, bAdded₀⟩ := bSound.writeAll consistent drawn.receiverFirst
  rw [aSound.holds.store.log_eq] at nearIs
  rw [bGrows₀.sound.holds.store.log_eq, bAdded₀] at farIs
  obtain ⟨x, ca', cb', runs, between, aGrows, bGrows, aLog, bLog, aState, bState⟩ :=
    Engine.exchange_runs consistent aSound bSound aReady bReady prompt drawn
  rw [← nearIs, ← farIs] at between
  have whole := between.whole consistent initiatorLimit receiverLimit initiatorRecords
    receiverRecords lacked
  have conveyed := whole.conveyed consistent
  have nearDrawn : ∀ r ∈ near, r ∈ records := nearIs ▸ aSound.drawn
  have farDrawn : ∀ r ∈ far, r ∈ records := farIs ▸ bAdded₀ ▸ bGrows₀.sound.drawn
  have farHashes : ∀ hash, hash ∈ hashesIn far ↔ hash ∈ hashesIn cb.records ∨
      hash ∈ hashesIn w.receiverFirst.flatten := fun hash => by rw [farIs, hashesIn_addRecords]
  refine ⟨x, runs, ?_, ?_, by rw [Engine.peerState, aState]; rfl,
    by rw [Engine.peerState, bState]; rfl⟩
  · rw [aGrows.sound.holds.store.log_eq]
    apply consistent.mem_union_iff aGrows.sound.drawn nearDrawn farDrawn drawn.initiator
    intro hash
    rw [aLog, ← nearIs]
    constructor
    · rintro (old | second | fourth | written)
      · exact Or.inl old
      · exact Or.inr (Or.inl (conveyed.second hash second))
      · exact Or.inr (Or.inl (conveyed.fourth hash fourth))
      · exact Or.inr (Or.inr written)
    · rintro (old | there | written)
      · exact Or.inl old
      · exact (conveyed.initiator consistent there).imp_right fun sent => sent.imp_right Or.inl
      · exact Or.inr (Or.inr (Or.inr written))
  · rw [bGrows.sound.holds.store.log_eq]
    apply consistent.mem_union_iff bGrows.sound.drawn nearDrawn farDrawn drawn.receiver
    intro hash
    rw [bLog, farHashes]
    constructor
    · rintro (old | written | third | written)
      · exact Or.inr (Or.inl (Or.inl old))
      · exact Or.inr (Or.inl (Or.inr written))
      · exact (conveyed.third hash third).imp_right fun back =>
          Or.inl ((farHashes hash).mp (conveyed.second hash back))
      · exact Or.inr (Or.inr written)
    · rintro (there | (old | written) | written)
      · rcases conveyed.receiver there with held | sent
        · exact ((farHashes hash).mp held).imp_right Or.inl
        · exact Or.inr (Or.inr (Or.inl sent))
      · exact Or.inl old
      · exact Or.inr (Or.inl written)
      · exact Or.inr (Or.inr (Or.inr written))

/-- A side that holds the first record of a pair and one that holds the second. -/
theorem exchange_reaches_union_pair : ∃ x : Exchange,
    x.Runs ⟨.fill 32 1⟩ ⟨.fill 32 2⟩ ⟨0, 0, 0, 0, 0⟩ .nothing (Sample.engine [Sample.trunk])
      (Sample.engine [Sample.twig]) ∧
    (∀ r, r ∈ x.initiator.store.log ↔ r ∈ (Sample.engine [Sample.trunk]).store.log ∨
      r ∈ (Sample.engine [Sample.twig]).store.log ∨ r ∈ []) ∧
    (∀ r, r ∈ x.receiver.store.log ↔ r ∈ (Sample.engine [Sample.trunk]).store.log ∨
      r ∈ (Sample.engine [Sample.twig]).store.log ∨ r ∈ []) ∧
    x.initiator.peerState ⟨.fill 32 2⟩ = .resting ∧
    x.receiver.peerState ⟨.fill 32 1⟩ = .thirdReceived := by
  have near : (Sample.engine [Sample.trunk]).Reachable Sample.pair :=
    Sample.engine_reachable (by simp [Sample.pair])
  have far : (Sample.engine [Sample.twig]).Reachable Sample.pair :=
    Sample.engine_reachable (by simp [Sample.pair])
  obtain ⟨ca, aSound⟩ := near.sound Sample.pair_consistent
  obtain ⟨cb, bSound⟩ := far.sound Sample.pair_consistent
  -- two records are in the logs at most
  have few : ∀ log : List Record, (∀ r ∈ log, r ∈ Sample.pair) → (hashSet log).card ≤ 2 := by
    intro log drawn
    refine Nat.le_trans (Finset.card_le_card ?_ :
      _ ≤ ({Sample.trunk.hash, Sample.twig.hash} : Finset Hash).card) Finset.card_le_two
    intro hash member
    obtain ⟨r, listed, rfl⟩ := mem_hashesIn.mp (mem_hashSet.mp member)
    rcases drawn r listed with rfl | rfl <;> simp
  have both := few ((Sample.engine [Sample.trunk]).store.log ++ (Sample.engine [Sample.twig]).store.log)
    fun r listed => by
      rw [aSound.holds.store.log_eq, bSound.holds.store.log_eq] at listed
      exact (List.mem_append.mp listed).elim (aSound.drawn r) (bSound.drawn r)
  have one := few (Sample.engine [Sample.twig]).store.log (bSound.holds.store.log_eq ▸ bSound.drawn)
  have lacked : (frontierSet Sample.pair (hashSet (Sample.engine [Sample.twig]).store.log) \
      hashSet (Sample.engine [Sample.trunk]).store.log).card ≤ 2 :=
    Nat.le_trans (Finset.card_le_card (Finset.sdiff_subset.trans frontierSet_subset)) one
  exact exchange_reaches_union Sample.pair_consistent near far (.inl rfl) (.inl rfl)
    ⟨by decide, by decide, by decide⟩ Meanwhile.drawn_nothing rfl rfl
    (Nat.le_trans both (by decide)) (Nat.le_trans both (by decide)) (Nat.le_trans both (by decide))
    (Nat.le_trans both (by decide)) (Nat.le_trans lacked (by decide))

end HashLog
