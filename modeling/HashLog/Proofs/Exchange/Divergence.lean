import HashLog.Proofs.Exchange.Writes
/-!
Where a graph in memory and its store part. A record that the store drops is in the graph, so a peer
that offers its hash is asked for it by an engine on the store and not by one on the graph
(`Twins.told_apart`). As long as no record is dropped the two engines cannot be told apart
(`backends_agree`).
-/
namespace HashLog

/-! ## What is asked for -/

namespace GraphView

variable {view : GraphView} {m : Message} {limit : Nat} {received : HashSet} {plan : Plan} {hash : Hash}

/-- What shows here is not asked for. -/
private theorem not_contains_of_missing {begins ends : List Hash} {offer : Offer}
    (offered : view.offer begins ends limit = .ok offer) (member : hash ∈ offer.missing) :
    view.contains hash = false := by
  obtain ⟨parts, rfl, each⟩ := parts_of_offer offered
  obtain ⟨part, listed, lacking⟩ := List.mem_flatMap.mp (mem_distinct.mp member)
  rcases (each part).mp listed with ⟨start, -, -, found⟩ | ⟨start, -, -, rfl⟩
  · unfold offerAhead at found
    split at found
    · obtain ⟨walk, -, rfl⟩ := map_eq_ok.mp found
      cases lacking
    · rename_i absent
      obtain rfl := Except.ok.inj found
      obtain rfl := List.mem_singleton.mp lacking
      simpa using absent
  · unfold offerAfter at lacking
    split at lacking
    · cases lacking
    · rename_i absent
      obtain rfl := List.mem_singleton.mp lacking
      simpa using absent

theorem not_contains_of_wanted (planned : view.planSecond received m limit = .ok plan)
    (member : hash ∈ plan.wanted) : view.contains hash = false := by
  unfold planSecond at planned
  split at planned
  · cases planned
  · rename_i offer offered
    obtain ⟨component, -, rfl⟩ := map_eq_ok.mp planned
    exact not_contains_of_missing offered member

/-- A peer's frontier that is the one here but for a hash that is not here. -/
theorem planSecond_absent (received : HashSet) (limit : Nat) (absent : view.contains hash = false)
    (isBegin : ∀ addr ∈ view.frontier.beginList, view.frontier.isBegin addr = true)
    (isEnd : ∀ addr ∈ view.frontier.endList, view.frontier.isEnd addr = true)
    (unlisted : view.frontier.isBegin hash = false) :
    view.planSecond received (.second (hash :: view.frontier.beginList) view.frontier.endList []) limit =
      .ok ⟨[], [hash]⟩ := by
  have begins : (hash :: view.frontier.beginList).filter (fun addr => !view.frontier.isBegin addr) =
      [hash] := by
    rw [List.filter_cons_of_pos (by simp [unlisted]), List.filter_eq_nil_iff.mpr]
    exact fun addr listed => by simp [isBegin addr listed]
  have ends : view.frontier.endList.filter (fun addr => !view.frontier.isEnd addr) = [] :=
    List.filter_eq_nil_iff.mpr fun addr listed => by simp [isEnd addr listed]
  have offered : view.offer (hash :: view.frontier.beginList) view.frontier.endList limit =
      .ok ⟨[], [], [hash]⟩ := by
    simp [offer, begins, ends, offerAhead, absent, Offer.join_eq, Offer.absent, distinct,
      HashSet.distinctFrom, pure, Except.pure, bind, Except.bind, Except.map]
  have matched : view.unreached (.second (hash :: view.frontier.beginList) view.frontier.endList [])
      ⟨[], [], [hash]⟩ = [] := by
    apply List.filter_eq_nil_iff.mpr
    intro addr listed
    simpa [Message.second] using Or.inr (List.mem_append.mp listed)
  simp only [planSecond, Message.second] at offered matched ⊢
  rw [offered]
  dsimp only
  rw [matched]
  rfl

end GraphView

namespace Engine

variable {e e' a b : Engine} {commits : Commits} {s t : Snapshot} {peer : NodeId} {now started : Nat}
  {batch : List Record} {m : Message} {links : Edges} {hash : Hash} {op : Operation}

/-! ## What an operation writes -/

private theorem same_process (advanced : e.Same ((e'.expire now peer).advance now peer m).2) :
    e.Same (e'.process now peer m).2 := by
  unfold process
  generalize (e'.expire now peer).advance now peer m = x at advanced
  obtain ⟨_ | step, after⟩ := x
  · exact advanced.trans (stays_close _ _ _).toSame
  · exact advanced

private theorem same_onSecond (nonempty : m.records.isEmpty = false)
    (checked : e.settings.checkRecords m.records = .ok ()) :
    (e.write m.records).2.Same (e.onSecond started s peer m).2 := by
  unfold onSecond accept
  simp only [nonempty, Bool.false_eq_true, ↓reduceIte, checked]
  split
  · exact .refl _
  · exact ⟨rfl, rfl, rfl⟩

private theorem same_onThird (nonempty : m.records.isEmpty = false)
    (checked : e.settings.checkRecords m.records = .ok ()) :
    (e.write m.records).2.Same (e.onThird s peer m).2 := by
  unfold onThird accept
  simp only [nonempty, Bool.false_eq_true, ↓reduceIte, checked]
  split
  · exact .refl _
  · exact (stays_close _ _ _).toSame

private theorem same_onFourth (nonempty : m.records.isEmpty = false)
    (checked : e.settings.checkRecords m.records = .ok ()) :
    (e.write m.records).2.Same (e.onFourth peer m).2 := by
  unfold onFourth
  simp only [nonempty, Bool.false_eq_true, ↓reduceIte, checked]
  exact (stays_close _ _ _).toSame

/-- A well formed first message carries no records. -/
theorem records_of_first (valid : m.validate = .ok ()) (phase : m.phase = .first) :
    m.records.isEmpty = true := by
  by_contra some
  have misplaced : (!m.records.isEmpty && !m.phase.mayCarryRecords) = true := by
    rw [Bool.not_eq_true] at some
    rw [some, phase]
    rfl
  unfold Message.validate at valid
  rw [if_pos misplaced] at valid
  split at valid <;> cases valid

private theorem same_advance (nonempty : m.records.isEmpty = false) (valid : m.validate = .ok ())
    (fits : Fits (e.peerState peer) m.phase) (checked : e.settings.checkRecords m.records = .ok ()) :
    (e.write m.records).2.Same (e.advance now peer m).2 := by
  have first : m.phase ≠ .first := fun phase => by simp [records_of_first valid phase] at nonempty
  unfold peerState at fits
  unfold advance
  rw [valid]
  dsimp only
  generalize e.conversation peer = c at fits
  generalize phase : m.phase = p at fits first
  match c, p, fits with
  | .resting, .first, _ => exact absurd rfl first
  | .thirdReceived, .first, _ => exact absurd rfl first
  | .firstSent started s, .second, _ => exact same_onSecond nonempty checked
  | .firstReceived started s, .third, _ => exact same_onThird nonempty checked
  | .thirdSent started s received, .fourth, _ => exact same_onFourth nonempty checked

/-- Records that are admitted are written. -/
theorem same_operate (admitted : e.Admits op) (nonempty : op.records ≠ []) :
    (e.write op.records).2.Same (e.operate op).2 := by
  cases op with
  | generate now peer => exact absurd rfl nonempty
  | write batch => exact .refl _
  | process now peer m =>
    obtain ⟨valid, fits, checked⟩ := admitted
    have expired := (stays_expire e now peer).toSame
    have some : m.records.isEmpty = false := by simpa [Operation.records] using nonempty
    exact expired.write.trans (same_process (same_advance some valid fits (expired.settings ▸ checked)))

/-! ## Asking for a hash -/

/-- Every conversation is over or grows too old. -/
private theorem exists_ready (e : Engine) (peer : NodeId) :
    ∃ since, ∀ now, since ≤ now → e.Ready now peer := by
  unfold Ready peerState Conversation.isExpired
  cases e.conversation peer with
  | resting => exact ⟨0, fun _ _ => Or.inl rfl⟩
  | thirdReceived => exact ⟨0, fun _ _ => Or.inl rfl⟩
  | firstSent started s =>
    exact ⟨started + e.settings.timeout + 1, fun now late => Or.inr (decide_eq_true (by omega))⟩
  | thirdSent started s received =>
    exact ⟨started + e.settings.timeout + 1, fun now late => Or.inr (decide_eq_true (by omega))⟩
  | firstReceived started s =>
    exact ⟨started + e.settings.timeout + 1, fun now late => Or.inr (decide_eq_true (by omega))⟩

private theorem generate_ready (ready : e.Ready now peer) {shows : Snapshot → Prop}
    (taken : ∀ e', e.Same e' → ∃ s registry, e'.snapshot = .ok (s, e'.withRegistry registry) ∧ shows s) :
    ∃ s, (e.generate now peer).2.conversation peer = .firstSent now s ∧ shows s ∧
      e.Same (e.generate now peer).2 := by
  have expired := (stays_expire e now peer).toSame
  obtain ⟨s, registry, snapshot, shown⟩ := taken ((e.expire now peer).setConversation peer .resting)
    ⟨expired.backend, expired.medium, expired.settings⟩
  have idle := expire_idle ready
  unfold peerState at idle
  simp only [generate, idle, ↓reduceIte, snapshot]
  exact ⟨s, conversation_setConversation, shown, expired.backend, expired.medium, expired.settings⟩

/-- The answer to a second message without records. -/
private theorem process_plain (state : e.conversation peer = .firstSent now s)
    (valid : m.validate = .ok ()) (phase : m.phase = .second) (none : m.records = []) :
    (e.process now peer m).1 = (e.answerSecond s (hashesOf []) m).map .reply := by
  have timely : e.Timely now peer := by
    rw [Timely, state]
    exact decide_eq_false (by omega)
  rw [process, expire_timely timely]
  simp only [advance, valid, phase, state, onSecond, accept, none, List.isEmpty_nil, ↓reduceIte]
  cases e.answerSecond s (hashesOf []) m <;> rfl

private theorem valid_plain (begins ends : List Hash) : (Message.second begins ends []).validate = .ok () :=
  Message.validate_ok (.inl rfl) (.inr rfl) (.inr rfl) (Nat.zero_le _) (Nat.zero_le _)

/-- A hash that shows is not asked for. -/
private theorem ask_shown {begins ends : List Hash} (state : e.conversation peer = .firstSent now s)
    (shown : (s.view e.store).contains hash = true) :
    (e.process now peer (.second begins ends [])).1 ≠ .ok (.reply (.third [hash] [])) := by
  rw [process_plain state (valid_plain _ _) rfl rfl, answerSecond_eq]
  intro same
  split at same
  · cases same
  · rename_i plan planned
    obtain ⟨reply, sent, same⟩ := map_eq_ok.mp same
    obtain rfl := Step.reply.inj same
    obtain ⟨records, -, built⟩ := map_eq_ok.mp sent
    have asked : plan.wanted.take e.settings.wantedBudget = [hash] := congrArg Message.wanted built
    have wanted : hash ∈ plan.wanted := List.mem_of_mem_take (asked ▸ List.mem_singleton_self hash)
    rw [GraphView.not_contains_of_wanted planned wanted] at shown
    cases shown

/-- A hash that does not show is asked for. -/
private theorem ask_absent (holds : e.store.Holds commits) (state : e.conversation peer = .firstSent now s)
    (frozen : s.Frozen e.store commits links) (absent : hash ∉ links.known) :
    (e.process now peer (.second (hash :: s.frontier.beginList) s.frontier.endList [])).1 =
      .ok (.reply (.third [hash] [])) := by
  have shows := frozen.shows holds
  have lacking : (s.view e.store).contains hash = false := by
    rw [Bool.eq_false_iff, ne_eq, shows.contains]
    exact absent
  have described := frozen.frontier
  have unlisted : s.frontier.isBegin hash = false := by
    rw [Bool.eq_false_iff, ne_eq, described.isBegin_iff]
    exact fun listed => absent (Edges.known_of_mem listed.choose_spec.1)
  have planned := GraphView.planSecond_absent (hashesOf []) e.settings.traversalLimit lacking
    (fun addr listed => described.isBegin_iff.mpr (described.mem_beginList.mp listed))
    (fun addr listed => described.isEnd_iff.mpr (described.mem_endList.mp listed)) unlisted
  obtain ⟨records, read, hashes, -⟩ := readToSend_ok holds
    (by simp : ∀ addr ∈ ([] : List Hash), addr ∈ hashesIn commits.records)
  obtain rfl : records = [] := List.map_eq_nil_iff.mp (hashes.trans List.take_nil)
  obtain ⟨fewer, budget⟩ := Nat.exists_eq_succ_of_ne_zero (Nat.ne_of_gt e.settings.wantedBudget_pos)
  rw [process_plain state (valid_plain _ _) rfl rfl, answerSecond_eq]
  change (s.view e.store).planSecond _ (.second (hash :: s.frontier.beginList) s.frontier.endList [])
    e.settings.traversalLimit = _ at planned
  rw [planned]
  simp only [read, budget, List.take_succ_cons, List.take_nil, Except.map]

/-! ## Telling the engines apart -/

/-- A graph that has a hash asks for nothing under it. -/
private theorem shown_by_graph {graph : LogGraph} {version : Nat} (mirror : e.backend = .mirror graph version)
    (known : graph.contains hash = true) (ready : e.Ready now peer) (begins ends : List Hash) :
    ((e.generate now peer).2.process now peer (.second begins ends [])).1 ≠
      .ok (.reply (.third [hash] [])) := by
  have taken : ∀ e', e.Same e' → ∃ s registry, e'.snapshot = .ok (s, e'.withRegistry registry) ∧
      ∀ store : Store, (s.view store).contains hash = true := by
    intro e' same
    refine ⟨.ofBase version (.graph graph), e'.store.registry, ?_, ?_⟩
    · rw [snapshot, same.backend.trans mirror]
      rfl
    · intro store
      simp [Snapshot.view, Snapshot.ofBase, Base.view, LogGraph.view, known]
  obtain ⟨s, state, shown, -⟩ := generate_ready ready taken
  exact ask_shown state (shown _)

/-- An engine whose log lacks a hash asks for it. -/
private theorem lacked_by_log (holds : e.Holds commits) (lacking : hash ∉ hashesIn commits.records)
    (ready : e.Ready now peer) : ∃ begins ends,
      ((e.generate now peer).2.process now peer (.second begins ends [])).1 =
        .ok (.reply (.third [hash] [])) := by
  have taken : ∀ e', e.Same e' → ∃ s registry, e'.snapshot = .ok (s, e'.withRegistry registry) ∧
      s.Frozen e.store commits commits.links := by
    intro e' same
    have holds' := same.holds holds
    obtain ⟨s, registry, taken, frozen⟩ := holds'.snapshot_eq
    exact ⟨s, registry, taken, frozen.later ((Store.Later.refl holds'.store).congr rfl same.medium)⟩
  obtain ⟨s, state, frozen, same⟩ := generate_ready ready taken
  have later := (Store.Later.refl holds.store).congr rfl same.medium.symm
  exact ⟨_, _, ask_absent later.holds state (frozen.later later) (by simpa [Commits.links] using lacking)⟩

private theorem Twins.admits (twins : a.Twins b commits) (admitted : b.Admits op) : a.Admits op := by
  cases op with
  | generate now peer => trivial
  | write batch => trivial
  | process now peer m =>
    obtain ⟨valid, fits, checked⟩ := admitted
    refine ⟨valid, ?_, twins.settings ▸ checked⟩
    rw [peerState, ((twins.expire now peer).twins.conversations peer).state_eq]
    exact fits

private theorem exists_graph (kind : e.backend.kind = .mirror) :
    ∃ graph version, e.backend = .mirror graph version := by
  cases backend : e.backend with
  | mirror graph version => exact ⟨graph, version, rfl⟩
  | store =>
    rw [backend] at kind
    cases kind

/-- A record that the store drops, be it written or received, is asked for by the engine on the store
and not by the one on the graph. -/
theorem Twins.told_apart (twins : a.Twins b commits) {r : Record}
    (nonNull : ∀ r ∈ op.records, r.hash ≠ Hash.null) (admitted : b.Admits op) (member : r ∈ op.records)
    (dropped : r.hash ∉ hashesIn (b.operate op).2.store.log) (peer : NodeId) : ∃ now m,
    (a.operateAll [op, .generate now peer, .process now peer m]).1 ≠
      (b.operateAll [op, .generate now peer, .process now peer m]).1 := by
  have some : op.records ≠ [] := List.ne_nil_of_mem member
  -- the graph takes up the record
  obtain ⟨graph, version, mirror⟩ := exists_graph twins.mirror
  have left := same_operate (twins.admits admitted) some
  have taken : (graph.ingest (op.records.map LogGraph.edgeOf)).2.Holds
      (commits.links.addAll (op.records.map LogGraph.edgeOf)) :=
    (twins.left.mirror graph version mirror).ingest fun link listed => by
      obtain ⟨r, written, rfl⟩ := List.mem_map.mp listed
      exact nonNull r written
  have known : r.hash ∈ (commits.links.addAll (op.records.map LogGraph.edgeOf)).known := by
    rw [Commits.links, ← linksOf_addRecords, known_linksOf, hashesIn_addRecords]
    exact Or.inr (mem_hashesIn.mpr ⟨r, member, rfl⟩)
  -- the log does not
  have right := same_operate admitted some
  obtain ⟨after, later, -⟩ := twins.right.store.write nonNull
  rw [← write_store] at later
  have holds : (b.operate op).2.Holds after :=
    right.holds (.of_plain (kind_write.trans twins.plain) later.holds)
  rw [holds.store.log_eq] at dropped
  obtain ⟨since, ready⟩ := (a.operate op).2.exists_ready peer
  obtain ⟨since', ready'⟩ := (b.operate op).2.exists_ready peer
  obtain ⟨begins, ends, asked⟩ :=
    lacked_by_log holds dropped (ready' (max since since') (Nat.le_max_right _ _))
  refine ⟨max since since', .second begins ends [], ?_⟩
  intro same
  refine shown_by_graph (left.backend.trans (write_mirror mirror)) (taken.contains_iff.mpr known)
    (ready (max since since') (Nat.le_max_left _ _)) begins ends ?_
  have last := congrArg (fun outcomes : List Outcome => outcomes[2]?) same
  exact (Outcome.processed.inj (Option.some.inj last)).trans asked

/-- A store that does not take all records of an operation has one of them under no number afterwards,
where no two of them share a hash. -/
private theorem exists_dropped (holds : e.store.Holds commits)
    (nonNull : ∀ r ∈ op.records, r.hash ≠ Hash.null)
    (single : ∀ r ∈ op.records, ∀ other ∈ op.records, r.hash = other.hash → r = other)
    (refused : ¬ e.Takes op) : e.Admits op ∧
      ∃ r ∈ op.records, r.hash ∉ hashesIn (e.operate op).2.store.log := by
  obtain ⟨admitted, refused⟩ := Classical.not_imp.mp refused
  refine ⟨admitted, ?_⟩
  by_contra kept
  refine refused (holds.takesAll nonNull ?_)
  intro r member unfit
  have found : r.hash ∈ hashesIn (e.operate op).2.store.log := by
    by_contra absent
    exact kept ⟨r, member, absent⟩
  have same := same_operate admitted (List.ne_nil_of_mem member)
  obtain ⟨after, later, added⟩ := holds.write nonNull
  rw [Store.log_congr same.medium, write_store, later.holds.log_eq, added, hashesIn_addRecords] at found
  apply found.resolve_right
  intro new
  obtain ⟨stored, listed, shared⟩ := mem_hashesIn.mp new
  obtain ⟨other, fit, rfl⟩ := List.mem_map.mp listed
  obtain ⟨member', fit⟩ := List.mem_filter.mp fit
  rw [Record.hash_keptAs] at shared
  rw [single other member' r member shared, unfit] at fit
  cases fit

/-- Engines start as twins over stores of the same records. -/
theorem Twins.start {store store' : Store} {settings : Settings} (holds : store.Holds commits)
    (same : store'.medium = store.medium) (mirror : start .mirror store settings = .ok a)
    (plain : start .store store' settings = .ok b) : a.Twins b commits := by
  obtain ⟨left, leftStore, leftSettings, leftIdle⟩ := start_holds holds mirror
  have holds' : store'.Holds commits := by rwa [Store.Holds, same]
  obtain ⟨right, rightStore, rightSettings, rightIdle⟩ := start_holds holds' plain
  refine ⟨?_, ?_, by rw [leftSettings, rightSettings], by rw [leftStore, rightStore, same], left,
    right, ?_⟩
  · obtain ⟨stored, -, rfl⟩ := map_eq_ok.mp mirror
    rfl
  · obtain rfl := Except.ok.inj plain
    rfl
  · intro peer
    simp only [conversation, leftIdle, rightIdle, Std.TreeMap.getD_emptyc]
    exact .resting

theorem operateAll_append (e : Engine) (ops more : List Operation) :
    (e.operateAll (ops ++ more)).1 = (e.operateAll ops).1 ++ ((e.operateAll ops).2.operateAll more).1 := by
  induction ops generalizing e with
  | nil => rfl
  | cons op rest ih => simp only [List.cons_append, operateAll, ih]

end Engine

/-- An engine on a graph in memory and one on its store cannot be told apart, whatever is asked of
them in whatever order, as long as their stores take all records that are written: every operation
returns the same on both, and the state of every conversation, the hashes received in it and the log
are the same afterwards. This holds no longer than that: once a record was not taken, any peer can make
the two answer differently. -/
theorem backends_agree {store store' : Store} {settings : Settings} {a b : Engine}
    (filled : store.Reachable {r | r.hash ≠ Hash.null}) (same : store'.medium = store.medium)
    (mirror : Engine.start .mirror store settings = .ok a)
    (plain : Engine.start .store store' settings = .ok b) {ops : List Operation}
    (nonNull : ∀ op ∈ ops, ∀ r ∈ op.records, r.hash ≠ Hash.null) (taken : b.TakesThrough ops) :
    (a.operateAll ops).1 = (b.operateAll ops).1 ∧
    (∀ peer, (a.operateAll ops).2.peerState peer = (b.operateAll ops).2.peerState peer ∧
      ((a.operateAll ops).2.conversation peer).received =
        ((b.operateAll ops).2.conversation peer).received) ∧
    (a.operateAll ops).2.store.log = (b.operateAll ops).2.store.log ∧
    ∀ op, (∀ r ∈ op.records, r.hash ≠ Hash.null) →
      (∀ r ∈ op.records, ∀ other ∈ op.records, r.hash = other.hash → r = other) →
      ¬ (b.operateAll ops).2.Takes op → ∀ peer, ∃ now m,
        (a.operateAll (ops ++ [op, .generate now peer, .process now peer m])).1 ≠
          (b.operateAll (ops ++ [op, .generate now peer, .process now peer m])).1 := by
  obtain ⟨commits, holds, -⟩ := filled.holds fun r nonNull => nonNull
  have twins := Engine.Twins.start holds same mirror plain
  obtain ⟨outcomes, after, grown⟩ := twins.operateAll nonNull taken
  have twins := grown.twins
  refine ⟨outcomes, ?_, Store.log_congr twins.medium, ?_⟩
  · intro peer
    exact ⟨(twins.conversations peer).state_eq, (twins.conversations peer).received_eq⟩
  · intro op nonNull single refused peer
    obtain ⟨admitted, r, member, dropped⟩ :=
      Engine.exists_dropped twins.right.store nonNull single refused
    obtain ⟨now, m, differ⟩ := twins.told_apart nonNull admitted member dropped peer
    refine ⟨now, m, fun agreed => differ ?_⟩
    rw [Engine.operateAll_append, Engine.operateAll_append, outcomes] at agreed
    exact List.append_cancel_left agreed

/-- A record of no numeric accuracy is dropped by a table. -/
theorem backends_agree_until_dropped :
    let a : Engine := ⟨.standard, .mirror (.ofEdges []) 0, .durable, ∅⟩
    let b : Engine := ⟨.standard, .store, .durable, ∅⟩
    let ops : List Operation := [.write [Sample.trunk], .generate 0 ⟨.fill 32 1⟩]
    let dropped : Operation := .write [Sample.plain 2 1 ⟨0x7ff8000000000000⟩]
    (a.operateAll ops).1 = (b.operateAll ops).1 ∧
    (a.operateAll ops).2.store.log = (b.operateAll ops).2.store.log ∧
    ∀ peer, ∃ now m,
      (a.operateAll (ops ++ [dropped, .generate now peer, .process now peer m])).1 ≠
        (b.operateAll (ops ++ [dropped, .generate now peer, .process now peer m])).1 := by
  intro a b ops dropped
  have mirror : Engine.start .mirror .durable .standard = .ok a := rfl
  have plain : Engine.start .store .durable .standard = .ok b := rfl
  have nonNull : ∀ op ∈ ops, ∀ r ∈ op.records, r.hash ≠ Hash.null := by
    simp only [ops, List.mem_cons, List.not_mem_nil, or_false]
    rintro _ (rfl | rfl) <;> decide
  have taken : b.TakesThrough ops := by
    apply (Engine.Twins.start Store.holds_durable rfl mirror plain).takesThrough nonNull
    simp only [ops, List.mem_cons, List.not_mem_nil, or_false]
    rintro _ (rfl | rfl) <;> decide
  obtain ⟨outcomes, -, logs, apart⟩ := backends_agree .durable rfl mirror plain nonNull taken
  refine ⟨outcomes, logs, apart dropped (by decide) (by decide) ?_⟩
  intro taken
  have known := (taken trivial).1 (by decide)
  revert known
  decide

end HashLog
