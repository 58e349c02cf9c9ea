import HashLog.Proofs.Exchange.Backing
import Mathlib.Data.Set.Function
/-!
Two peers served at the same time. A message is answered from the snapshot of its own conversation and
from records that this snapshot shows, all of which are stored, so it makes no difference whether
another peer's records were written before it or not (`Beside.process`). What the two messages write
is the same set of records in either order, as long as no two records share a hash
(`distinct_peers_commute`).
-/
namespace HashLog

/-- Where no two records share a hash, a batch adds all of its records. -/
theorem mem_addRecords_iff {log batch : List Record} {r : Record}
    (single : Set.InjOn Record.hash {r | r ∈ log ∨ r ∈ batch}) :
    r ∈ addRecords log batch ↔ r ∈ log ∨ r ∈ batch := by
  refine ⟨mem_addRecords, fun member => ?_⟩
  have present : r.hash ∈ hashesIn (addRecords log batch) :=
    hashesIn_addRecords.mpr (member.imp List.mem_map_of_mem List.mem_map_of_mem)
  obtain ⟨other, listed, same⟩ := mem_hashesIn.mp present
  exact single (mem_addRecords listed) member same ▸ listed

/-- A read finds the same records in a store of more records. -/
theorem Store.Filed.read_eq_of_subset {s s' : Store} (filed : s.Filed) (filed' : s'.Filed)
    (memory : s.medium.durable = false) (memory' : s'.medium.durable = false) (more : s.log ⊆ s'.log)
    {hashes : List Hash} (known : ∀ hash ∈ hashes, hash ∈ s.storedHashes) : s'.read hashes = s.read hashes := by
  rcases s with ⟨m | t, registry⟩
  · rcases s' with ⟨m' | t', registry'⟩
    · obtain ⟨commits, tracks⟩ := filed
      obtain ⟨commits', tracks'⟩ := filed'
      have same : hashes.filterMap m'.find? = hashes.filterMap m.find? := by
        apply List.filterMap_congr
        intro hash member
        obtain ⟨record, listed, named⟩ := mem_hashesIn.mp (known hash member)
        have here : record ∈ commits.records := tracks.records_eq ▸ listed
        have there : record ∈ commits'.records := tracks'.records_eq ▸ more listed
        rw [tracks.find?_eq_some.mpr ⟨here, named⟩, tracks'.find?_eq_some.mpr ⟨there, named⟩]
      exact congrArg Except.ok same
    · cases memory'
  · cases memory

/-- Registration depends on the store through the frozen graph only. -/
theorem Snapshot.registerAll_congr {s : Snapshot} {store store' : Store} {batch : List Record}
    (same : s.base.view store' = s.base.view store) :
    s.registerAll store' batch = s.registerAll store batch := by
  unfold Snapshot.registerAll
  induction batch generalizing s with
  | nil => rfl
  | cons record rest ih =>
    have first : s.register store' record.hash record.prev = s.register store record.hash record.prev := by
      rw [Snapshot.register, Snapshot.register, Snapshot.view_of_base same]
    rw [List.foldl_cons, List.foldl_cons, first]
    exact ih (by rwa [base_register])

namespace Engine

variable {e f e' f' : Engine} {s : Snapshot} {peer : NodeId} {now started : Nat} {m : Message}
  {batch : List Record} {received : HashSet}

/-! ## Answers -/

/-- Two engines that answer alike from a snapshot. -/
structure Level (e f : Engine) (s : Snapshot) : Prop where
  settings : f.settings = e.settings
  view : s.view f.store = s.view e.store
  shows : (s.view e.store).ShowsOnly e.store.storedHashes
  reads : ∀ hashes : List Hash, (∀ hash ∈ hashes, hash ∈ e.store.storedHashes) →
    f.store.read hashes = e.store.read hashes

namespace Level

variable (level : e.Level f s)
include level

theorem readToSend_eq {hashes : List Hash} (known : ∀ hash ∈ hashes, hash ∈ e.store.storedHashes) :
    f.readToSend hashes = e.readToSend hashes := by
  rw [readToSend, readToSend, level.settings,
    level.reads _ fun hash member => known hash (List.mem_of_mem_take member)]

theorem answerSecond_eq : f.answerSecond s received m = e.answerSecond s received m := by
  rw [Engine.answerSecond_eq, Engine.answerSecond_eq, level.settings, level.view]
  cases planned : (s.view e.store).planSecond received m e.settings.traversalLimit with
  | error cycle => rfl
  | ok plan =>
    dsimp only
    rw [level.readToSend_eq (level.shows.planSecond planned)]

theorem answerThird_eq : f.answerThird s received m = e.answerThird s received m := by
  rw [Engine.answerThird_eq, Engine.answerThird_eq, level.settings, level.view]
  cases planned : (s.view e.store).planThird received m e.settings.traversalLimit with
  | error cycle => rfl
  | ok plan =>
    dsimp only
    rw [level.readToSend_eq (level.shows.planThird planned)]

end Level

/-! ## Steps -/

/-- An engine and one that has stored more for other peers. -/
structure Beside (e f : Engine) (peer : NodeId) : Prop where
  settings : f.settings = e.settings
  conversation : f.conversation peer = e.conversation peer
  base : ∀ s, (e.conversation peer).snapshot? = some s → s.base.view f.store = s.base.view e.store
  more : e.store.log ⊆ f.store.log

/-- The same records were written to two engines, or none to either. -/
inductive Alongside (e f : Engine) (batch : List Record) (e' f' : Engine) : Prop where
  | nothing (left : e.Same e') (right : f.Same f')
  | all (left : (e.write batch).2.Same e') (right : (f.write batch).2.Same f')

theorem Alongside.trans {e'' f'' : Engine} (along : e.Alongside f batch e' f') (left : e'.Same e'')
    (right : f'.Same f'') : e.Alongside f batch e'' f'' := by
  cases along with
  | nothing before before' => exact .nothing (before.trans left) (before'.trans right)
  | all before before' => exact .all (before.trans left) (before'.trans right)

theorem Alongside.after {e'' f'' : Engine} (left : e.Same e') (right : f.Same f')
    (along : e'.Alongside f' batch e'' f'') : e.Alongside f batch e'' f'' := by
  cases along with
  | nothing later later' => exact .nothing (left.trans later) (right.trans later')
  | all later later' => exact .all (left.write.trans later) (right.write.trans later')

/-- A peer gets the same from two engines. -/
structure Abreast (e f : Engine) (peer : NodeId) (batch : List Record)
    (x y : Except ExchangeError Step × Engine) : Prop where
  result : y.1 = x.1
  conversation : y.2.conversation peer = x.2.conversation peer
  along : e.Alongside f batch x.2 y.2

section Steps

variable (beside : e.Beside f peer) (backed : e.Backed) (backed' : f.Backed)
include beside

omit beside in
private theorem Housed.log_write (housed : e.Housed) (batch : List Record) :
    (e.write batch).2.store.log = addRecords e.store.log batch := by
  rw [write_store, housed.filed.log_write housed.memory]

private theorem Beside.refused (error : ExchangeError) :
    e.Abreast f peer batch (.error error, e) (.error error, f) :=
  ⟨rfl, beside.conversation, .nothing (.refl e) (.refl f)⟩

theorem Beside.expire (now : Nat) : (e.expire now peer).Beside (f.expire now peer) peer := by
  unfold Engine.expire
  rw [beside.conversation, beside.settings]
  split
  · have left := (stays_close e peer .resting).toSame
    have right := (stays_close f peer .resting).toSame
    refine ⟨?_, by rw [conversation_close, conversation_close], fun s held => ?_, ?_⟩
    · rw [left.settings, right.settings, beside.settings]
    · rw [conversation_close] at held
      cases held
    · rw [Store.log_congr left.medium, Store.log_congr right.medium]
      exact beside.more
  · exact beside

include backed backed'

/-- Records are accepted by both or by neither, and the two engines answer alike then. -/
theorem Beside.accept (held : (e.conversation peer).snapshot? = some s)
    (single : Set.InjOn Record.hash {r | r ∈ f.store.log ∨ r ∈ batch}) :
    (∃ error, e.accept s batch = .error error ∧ f.accept s batch = .error error) ∨
      ∃ s' e' f', e.accept s batch = .ok (s', e') ∧ f.accept s batch = .ok (s', f') ∧
        f'.conversation peer = e'.conversation peer ∧ e'.Level f' s' ∧ e.Alongside f batch e' f' := by
  have own := backed.held peer s held
  have own' := backed'.held peer s (beside.conversation ▸ held)
  have housed := backed.engine
  have housed' := backed'.engine
  have base := beside.base s held
  unfold Engine.accept
  rw [beside.settings]
  split
  · exact Or.inr ⟨s, e, f, rfl, rfl, beside.conversation,
      ⟨beside.settings, Snapshot.view_of_base base, own.shows, fun _ =>
        housed.filed.read_eq_of_subset housed'.filed housed.memory housed'.memory beside.more⟩,
      .nothing (.refl e) (.refl f)⟩
  · cases e.settings.checkRecords batch with
    | error error => exact Or.inl ⟨_, rfl, rfl⟩
    | ok passed =>
      have written := housed.write batch
      have written' := housed'.write batch
      have below : (s.registerAll e.store batch).base.view (f.write batch).2.store =
          (s.registerAll e.store batch).base.view (e.write batch).2.store := by
        rw [Snapshot.base_registerAll, write_store, write_store,
          own'.within.view_write housed'.filed, own.within.view_write housed.filed, base]
      have more : (e.write batch).2.store.log ⊆ (f.write batch).2.store.log := by
        intro r member
        rw [housed.log_write] at member
        rw [housed'.log_write, mem_addRecords_iff single]
        exact (mem_addRecords member).imp_left fun old => beside.more old
      refine Or.inr ⟨_, _, _, rfl, by rw [Snapshot.registerAll_congr base], ?_,
        ⟨?_, Snapshot.view_of_base below, (sustained_backed.registered batch housed own).shows, fun _ =>
          written.filed.read_eq_of_subset written'.filed written.memory written'.memory more⟩,
        .all (.refl _) (.refl _)⟩
      · rw [conversation_write, conversation_write, beside.conversation]
      · rw [write_settings, write_settings, beside.settings]

private theorem Beside.onSecond (state : e.conversation peer = .firstSent started s)
    (single : Set.InjOn Record.hash {r | r ∈ f.store.log ∨ r ∈ m.records}) :
    e.Abreast f peer m.records (e.onSecond started s peer m) (f.onSecond started s peer m) := by
  unfold Engine.onSecond
  rcases beside.accept backed backed' (by rw [state]; rfl) single with
    ⟨error, left, right⟩ | ⟨s', e', f', left, right, same, level, along⟩
  · simp only [left, right]
    exact beside.refused error
  · simp only [left, right, level.answerSecond_eq]
    cases e'.answerSecond s' (hashesOf m.records) m with
    | error error => exact ⟨rfl, same, along⟩
    | ok reply =>
      exact ⟨rfl, by simp only [conversation_setConversation],
        along.trans (stays_setConversation e' peer _).toSame (stays_setConversation f' peer _).toSame⟩

private theorem Beside.onThird (state : e.conversation peer = .firstReceived started s)
    (single : Set.InjOn Record.hash {r | r ∈ f.store.log ∨ r ∈ m.records}) :
    e.Abreast f peer m.records (e.onThird s peer m) (f.onThird s peer m) := by
  unfold Engine.onThird
  rcases beside.accept backed backed' (by rw [state]; rfl) single with
    ⟨error, left, right⟩ | ⟨s', e', f', left, right, same, level, along⟩
  · simp only [left, right]
    exact beside.refused error
  · simp only [left, right, level.answerThird_eq]
    cases e'.answerThird s' (hashesOf m.records) m with
    | error error => exact ⟨rfl, same, along⟩
    | ok reply =>
      exact ⟨rfl, by simp only [conversation_close],
        along.trans (stays_close e' peer _).toSame (stays_close f' peer _).toSame⟩

omit backed backed' in
private theorem Beside.onFourth :
    e.Abreast f peer m.records (e.onFourth peer m) (f.onFourth peer m) := by
  unfold Engine.onFourth
  rw [beside.settings]
  split
  · exact beside.refused _
  · have along : e.Alongside f m.records (if m.records.isEmpty then e else (e.write m.records).2)
        (if m.records.isEmpty then f else (f.write m.records).2) := by
      split
      · exact .nothing (.refl e) (.refl f)
      · exact .all (.refl _) (.refl _)
    exact ⟨rfl, by simp only [conversation_close],
      along.trans (stays_close _ peer _).toSame (stays_close _ peer _).toSame⟩

private theorem Beside.advance (late : m.phase ≠ .first)
    (single : Set.InjOn Record.hash {r | r ∈ f.store.log ∨ r ∈ m.records}) :
    e.Abreast f peer m.records (e.advance now peer m) (f.advance now peer m) := by
  unfold Engine.advance
  cases m.validate with
  | error fault => exact beside.refused _
  | ok passed =>
    dsimp only
    rw [beside.conversation]
    cases state : e.conversation peer with
    | resting | thirdReceived =>
      cases phase : m.phase
      case first => exact absurd phase late
      all_goals exact beside.refused _
    | firstSent started s =>
      cases m.phase
      case second => exact beside.onSecond backed backed' state single
      all_goals exact beside.refused _
    | thirdSent started s received =>
      cases m.phase
      case fourth => exact beside.onFourth
      all_goals exact beside.refused _
    | firstReceived started s =>
      cases m.phase
      case third => exact beside.onThird backed backed' state single
      all_goals exact beside.refused _

/-- A peer is answered the same whether or not more was stored for others, and the same is written. -/
theorem Beside.process (now : Nat) (late : m.phase ≠ .first)
    (single : Set.InjOn Record.hash {r | r ∈ f.store.log ∨ r ∈ m.records}) :
    e.Abreast f peer m.records (e.process now peer m) (f.process now peer m) := by
  have left := (stays_expire e now peer).toSame
  have right := (stays_expire f now peer).toSame
  have advanced : (e.expire now peer).Abreast (f.expire now peer) peer m.records
      ((e.expire now peer).advance now peer m) ((f.expire now peer).advance now peer m) :=
    (beside.expire now).advance (backed.expire sustained_backed now peer)
      (backed'.expire sustained_backed now peer) late (by rwa [Store.log_congr right.medium])
  unfold Engine.process
  generalize (e.expire now peer).advance now peer m = x at advanced
  generalize (f.expire now peer).advance now peer m = y at advanced
  obtain ⟨result, e'⟩ := x
  obtain ⟨result', f'⟩ := y
  obtain ⟨rfl, conversation, along⟩ := advanced
  cases result' with
  | ok step => exact ⟨rfl, conversation, .after left right along⟩
  | error error =>
    exact ⟨rfl, by simp only [conversation_close], .after left right
      (along.trans (stays_close e' peer _).toSame (stays_close f' peer _).toSame)⟩

end Steps

/-! ## Two peers -/

/-- What a message from one peer leaves is beside what there was, as another peer sees it. -/
theorem Receives.beside {other : NodeId} (received : e.Receives other batch f) (kept : e.Kept)
    (housed : e.Housed) (apart : peer ≠ other) : e.Beside f peer := by
  obtain ⟨settings, spares⟩ := received.keeps
  refine ⟨settings, spares peer apart, fun s => received.base_view_eq kept, ?_⟩
  cases received with
  | nothing stays => rw [Store.log_congr stays.medium]; exact List.Subset.refl _
  | all _ stays =>
    rw [Store.log_congr stays.medium, housed.log_write]
    exact subset_addRecords

theorem Receives.entered {other : NodeId} (received : e.Receives other batch f) (housed : e.Housed) {r : Record}
    (member : r ∈ f.store.log) : r ∈ e.store.log ∨ r ∈ batch := by
  cases received with
  | nothing stays => exact Or.inl (Store.log_congr stays.medium ▸ member)
  | all _ stays =>
    rw [Store.log_congr stays.medium, housed.log_write] at member
    exact mem_addRecords member

private theorem Housed.log_of_written (housed : e.Housed) (written : (e.write batch).2.Same e') :
    e'.store.log = addRecords e.store.log batch := by
  rw [Store.log_congr written.medium, housed.log_write]

/-- Two batches that are written to two engines side by side, one of them first here and the other one
there, leave the same records. -/
private theorem Alongside.mem_log_iff {p q pq qp : Engine} {ps qs : List Record} (housed : e.Housed)
    (own : e.Alongside q ps p qp) (other : e.Alongside p qs q pq)
    (single : Set.InjOn Record.hash {r | r ∈ e.store.log ∨ r ∈ ps ∨ r ∈ qs}) (r : Record) :
    r ∈ pq.store.log ↔ r ∈ qp.store.log := by
  have unwritten {a b : Engine} (same : a.Same b) : b.store.log = a.store.log := Store.log_congr same.medium
  cases own with
  | nothing keptP keptQP =>
    cases other with
    | nothing keptQ keptPQ => rw [unwritten keptPQ, unwritten keptQP, unwritten keptP, unwritten keptQ]
    | all wroteQ wrotePQ =>
      have housedP := sustained_backed.same keptP housed
      rw [housedP.log_of_written wrotePQ, unwritten keptQP, unwritten keptP, housed.log_of_written wroteQ]
  | all wroteP wroteQP =>
    cases other with
    | nothing keptQ keptPQ =>
      have housedQ := sustained_backed.same keptQ housed
      rw [unwritten keptPQ, housedQ.log_of_written wroteQP, unwritten keptQ, housed.log_of_written wroteP]
    | all wroteQ wrotePQ =>
      have housedP := sustained_backed.same wroteP (housed.write ps)
      have housedQ := sustained_backed.same wroteQ (housed.write qs)
      have left : r ∈ addRecords e.store.log (ps ++ qs) ↔ r ∈ e.store.log ∨ r ∈ ps ++ qs :=
        mem_addRecords_iff (single.mono fun r => Or.imp_right List.mem_append.mp)
      have right : r ∈ addRecords e.store.log (qs ++ ps) ↔ r ∈ e.store.log ∨ r ∈ qs ++ ps :=
        mem_addRecords_iff (single.mono fun r => Or.imp_right (List.mem_append.mp · |>.symm))
      rw [housedP.log_of_written wrotePQ, housed.log_of_written wroteP, ← addRecords_append, left,
        housedQ.log_of_written wroteQP, housed.log_of_written wroteQ, ← addRecords_append, right,
        List.mem_append, List.mem_append, or_comm (a := r ∈ ps)]

/-- Distinct peers do not disturb each other. Two messages beyond the first phase that two peers send
at the same instant to an engine in memory get the same result in either order, leave each
conversation the same and add the same records, as long as no two records that are stored or sent
share a hash. -/
theorem distinct_peers_commute {kind : BackendKind} {store : Store} {settings : Settings} {e : Engine}
    (filled : store.Reachable Set.univ) (memory : store.medium.durable = false)
    (started : Engine.start kind store settings = .ok e) (ops : List Operation) (now : Nat)
    {p q : NodeId} (apart : p ≠ q) {mp mq : Message} (late : mp.phase ≠ .first) (late' : mq.phase ≠ .first)
    (single : Set.InjOn Record.hash
      {r | r ∈ (e.operateAll ops).2.store.log ∨ r ∈ mp.records ∨ r ∈ mq.records}) :
    let before := (e.operateAll ops).2
    let forP := before.process now p mp
    let forQ := before.process now q mq
    let forPQ := forP.2.process now q mq
    let forQP := forQ.2.process now p mp
    forQP.1 = forP.1 ∧ forPQ.1 = forQ.1 ∧
      (∀ peer, forPQ.2.conversation peer = forQP.2.conversation peer) ∧
      ∃ log log', forPQ.2.store.readAll = .ok log ∧ forQP.2.store.readAll = .ok log' ∧
        ∀ r, r ∈ log ↔ r ∈ log' := by
  intro before forP forQ forPQ forQP
  have backed : before.Backed := (Backed.start filled.filed memory started).operateAll sustained_backed ops
  have backedP : forP.2.Backed := backed.process sustained_backed now p mp
  have backedQ : forQ.2.Backed := backed.process sustained_backed now q mq
  have housed := backed.engine
  have receivesP := before.process_receives now p mp
  have receivesQ := before.process_receives now q mq
  have abreastP : before.Abreast forQ.2 p mp.records forP forQP :=
    (receivesQ.beside backed.kept housed apart).process backed backedQ now late (single.mono fun r member =>
      member.elim (fun stored => (receivesQ.entered housed stored).imp_right Or.inr) fun sent => Or.inr (Or.inl sent))
  have abreastQ : before.Abreast forP.2 q mq.records forQ forPQ :=
    (receivesP.beside backed.kept housed apart.symm).process backed backedP now late' (single.mono fun r member =>
      member.elim (fun stored => (receivesP.entered housed stored).imp_right Or.inl) fun sent => Or.inr (Or.inr sent))
  have sparesP := receivesP.keeps.2
  have sparesQ := receivesQ.keeps.2
  have sparesPQ := (forP.2.process_receives now q mq).keeps.2
  have sparesQP := (forQ.2.process_receives now p mp).keeps.2
  refine ⟨abreastP.result, abreastQ.result, fun peer => ?_, ?_⟩
  · by_cases isP : peer = p
    · subst isP
      exact (sparesPQ peer apart).trans abreastP.conversation.symm
    · by_cases isQ : peer = q
      · subst isQ
        exact abreastQ.conversation.trans (sparesQP peer isP).symm
      · rw [sparesPQ peer isQ, sparesP peer isP, sparesQP peer isP, sparesQ peer isQ]
  · have listsPQ := (backedP.process sustained_backed now q mq).engine.filed.lists
    have listsQP := (backedQ.process sustained_backed now p mp).engine.filed.lists
    exact ⟨_, _, listsPQ.readAll_eq, listsQP.readAll_eq, abreastP.along.mem_log_iff housed abreastQ.along single⟩

/-- One peer answers with a record, and another one that was answered sends that record and the one
before it. -/
theorem distinct_peers_commute_of_overlap :
    let e : Engine := ⟨{ Settings.standard with verify := false }, .store, .inMemory, ∅⟩
    let near : NodeId := ⟨.fill 32 1⟩
    let far : NodeId := ⟨.fill 32 2⟩
    let before := (e.operateAll [.generate 0 near, .process 0 far (.first [] [])]).2
    let mp : Message := .second [Sample.twig.hash] [Sample.twig.hash] [Sample.twig]
    let mq : Message := .third [Sample.twig.hash] [Sample.trunk, Sample.twig]
    let forP := before.process 1 near mp
    let forQ := before.process 1 far mq
    forP.1 = .ok (.reply (.third [] [])) ∧ forQ.1 = .ok (.reply (.fourth [])) ∧
      (forQ.2.process 1 near mp).1 = forP.1 ∧ (forP.2.process 1 far mq).1 = forQ.1 ∧
      (forP.2.process 1 far mq).2.conversation near = (forQ.2.process 1 near mp).2.conversation near := by
  intro e near far before mp mq forP forQ
  have none : before.store.log = [] := by decide +kernel
  have drawn : {r | r ∈ before.store.log ∨ r ∈ mp.records ∨ r ∈ mq.records} ⊆ Sample.pair := by
    intro r member
    simp only [none, mp, mq, Message.second, Message.third, Set.mem_ofPred_eq, List.mem_cons,
      List.not_mem_nil, or_false, false_or] at member
    exact member.elim Or.inr id
  have single : Set.InjOn Record.hash Sample.pair := fun r left s right same =>
    Sample.pair_consistent.unique r left s right same
  obtain ⟨left, right, conversations, -⟩ := distinct_peers_commute .inMemory rfl
    (rfl : Engine.start .store _ _ = .ok e) [.generate 0 near, .process 0 far (.first [] [])] 1
    (by decide : near ≠ far) (by decide : mp.phase ≠ .first) (by decide : mq.phase ≠ .first)
    (single.mono drawn)
  exact ⟨by decide +kernel, by decide +kernel, left, right, conversations near⟩

end Engine

end HashLog
