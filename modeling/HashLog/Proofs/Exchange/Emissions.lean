import HashLog.Proofs.Exchange.Responses
import HashLog.Proofs.Exchange.Union
/-!
What an engine sends. Plans name nothing twice and nothing that the peer has just sent, whatever frontier
it claims to have, and an answer carries out a plan: reads and budgets only leave out of it. So the other
side can find no fault with the form of any message (`emissions_are_acceptable`).
-/
namespace HashLog

theorem Frontier.ascending_beginList (f : Frontier) :
    f.beginList.Pairwise fun a b => compare a b = .lt :=
  Std.TreeMap.ordered_keys

theorem Frontier.ascending_endList (f : Frontier) : f.endList.Pairwise fun a b => compare a b = .lt :=
  Std.TreeSet.ordered_toList

/-! ## Plans, whatever the peer claims to have -/

/-- A plan that names nothing twice, sends nothing that was received and asks for nothing that shows. -/
structure Plan.Spare (view : GraphView) (received : HashSet) (plan : Plan) : Prop where
  distinct_send : plan.send.Nodup
  unsent : ∀ hash ∈ plan.send, hash ∉ received
  distinct_wanted : plan.wanted.Nodup
  unseen : ∀ hash ∈ plan.wanted, view.contains hash = false

section Plans

variable {view : GraphView} {received : HashSet} {m : Message} {limit : Nat} {plan : Plan}
  {begins ends : List Hash} {offer : Offer}

/-- An offer names nothing twice. -/
theorem GraphView.nodup_of_offer (offered : view.offer begins ends limit = .ok offer) :
    offer.send.Nodup ∧ offer.missing.Nodup := by
  obtain ⟨ahead, -, rfl⟩ := map_eq_ok.mp offered
  exact ⟨nodup_distinct, nodup_distinct⟩

theorem Plan.spare_of_first (planned : view.planFirst m limit = .ok plan) : plan.Spare view ∅ := by
  obtain ⟨offer, offered, rfl⟩ := map_eq_ok.mp planned
  exact ⟨(GraphView.nodup_of_offer offered).1, fun hash _ => by simp, .nil, List.forall_mem_nil _⟩

theorem Plan.spare_of_second (planned : view.planSecond received m limit = .ok plan) :
    plan.Spare view received := by
  have unseen : ∀ hash ∈ plan.wanted, view.contains hash = false := fun hash asked =>
    GraphView.not_contains_of_wanted planned asked
  unfold GraphView.planSecond at planned
  split at planned
  · cases planned
  · rename_i offer offered
    obtain ⟨component, -, rfl⟩ := map_eq_ok.mp planned
    exact ⟨nodup_distinct.filter _, fun hash sent => (mem_unreceived.mp sent).2,
      (GraphView.nodup_of_offer offered).2, unseen⟩

theorem Plan.spare_of_third (planned : view.planThird received m limit = .ok plan) :
    plan.Spare view received := by
  obtain ⟨component, found, rfl⟩ := map_eq_ok.mp planned
  exact ⟨(GraphView.component_collects found).nodup.filter _,
    fun hash sent => (mem_unreceived.mp sent).2, .nil, List.forall_mem_nil _⟩

end Plans

namespace Engine

variable {e e' : Engine} {peer : NodeId} {now : Nat} {m reply : Message}

/-! ## Messages -/

/-- What holds of a message to a peer when it is sent. -/
structure Emits (e : Engine) (peer : NodeId) (m : Message) : Prop where
  valid : m.validate = .ok ()
  begins : m.begins.Pairwise fun a b => compare a b = .lt
  ends : m.ends.Pairwise fun a b => compare a b = .lt
  distinct_records : (hashesIn m.records).Nodup
  stored : ∃ log, e.store.readAll = .ok log ∧ m.records ⊆ log
  few_records : m.records.length ≤ e.settings.recordBudget
  distinct_wanted : m.wanted.Nodup
  unseen : ∀ hash ∈ m.wanted, ∃ s, (e.conversation peer).snapshot? = some s ∧
    (s.view e.store).contains hash = false
  few_wanted : m.wanted.length ≤ e.settings.wantedBudget

/-- What is read to be sent are stored records of the hashes that were planned. -/
theorem sends_of_read (filed : e.store.Filed) {hashes : List Hash} {records : List Record}
    (read : e.readToSend hashes = .ok records) : (hashesIn records).Sublist hashes ∧
      ∃ log, e.store.readAll = .ok log ∧ records ⊆ log := by
  have located := read_of_readToSend read
  obtain ⟨found, located', part⟩ := filed.lists.read_ok (hashes.take e.settings.recordBudget)
  obtain rfl := Except.ok.inj (located.symm.trans located')
  exact ⟨part.trans (List.take_sublist _ _), _, filed.lists.readAll_eq, filed.lists.read_subset located⟩

theorem generate_emits (filed : e.store.Filed) (generated : e.generate now peer = (.ok (some m), e')) :
    e'.Emits peer m := by
  have lists := (filed.congr (e.stays_generate now peer).medium).lists
  rw [generated] at lists
  unfold generate at generated
  dsimp only at generated
  split at generated
  · split at generated
    · cases generated
    · cases generated
      exact ⟨Message.validate_ok (.inl rfl) (.inr rfl) (.inr rfl) (Nat.zero_le _) (Nat.zero_le _),
        Frontier.ascending_beginList _, Frontier.ascending_endList _, .nil,
        ⟨_, lists.readAll_eq, List.nil_subset _⟩, Nat.zero_le _, .nil, List.forall_mem_nil _,
        Nat.zero_le _⟩
  · cases generated

/-- An answer is as a message should be, and holds nothing of what it answers. -/
theorem Answer.emits (answer : e.Answer peer m reply) (filed : e.store.Filed) :
    e.Emits peer reply ∧ ∀ r ∈ reply.records, r.hash ∉ hashesIn m.records := by
  have valid := answer.valid
  have unsent {plan : Plan} {view : GraphView} {received : HashSet} {records : List Record}
      (spare : plan.Spare view received) (part : (hashesIn records).Sublist plan.send)
      (same : ∀ hash, hash ∈ received ↔ hash ∈ hashesIn m.records) :
      ∀ r ∈ records, r.hash ∉ hashesIn m.records := fun r member back =>
    spare.unsent r.hash (part.subset (List.mem_map_of_mem member)) ((same r.hash).mpr back)
  cases answer with
  | second bare state planned read =>
    have spare := Plan.spare_of_first planned
    obtain ⟨part, stored⟩ := sends_of_read filed read
    exact ⟨⟨valid, Frontier.ascending_beginList _, Frontier.ascending_endList _,
      spare.distinct_send.sublist part, stored, length_of_readToSend read, .nil, List.forall_mem_nil _,
      Nat.zero_le _⟩, unsent spare part fun hash => by rw [bare]; simp [hashesIn]⟩
  | third state planned read =>
    have spare := Plan.spare_of_second planned
    obtain ⟨part, stored⟩ := sends_of_read filed read
    exact ⟨⟨valid, .nil, .nil, spare.distinct_send.sublist part, stored, length_of_readToSend read,
      spare.distinct_wanted.sublist (List.take_sublist _ _),
      fun hash asked => ⟨_, by rw [state]; rfl, spare.unseen hash (List.mem_of_mem_take asked)⟩,
      List.length_take_le _ _⟩, unsent spare part fun hash => mem_hashesOf⟩
  | fourth state planned read =>
    have spare := Plan.spare_of_third planned
    obtain ⟨part, stored⟩ := sends_of_read filed read
    exact ⟨⟨valid, .nil, .nil, spare.distinct_send.sublist part, stored, length_of_readToSend read, .nil,
      List.forall_mem_nil _, Nat.zero_le _⟩, unsent spare part fun hash => mem_hashesOf⟩

/-- Every message that an engine sends is well formed, within its own budgets, in order and free of
repetitions, it carries stored records and asks for what does not show, and no answer carries a record
whose hash came with the message that it answers, whatever the settings are and whatever peers send. -/
theorem emissions_are_acceptable {kind : BackendKind} {store : Store} {settings : Settings} {e : Engine}
    (filled : store.Reachable Set.univ) (started : Engine.start kind store settings = .ok e)
    (ops : List Operation) (now : Nat) (peer : NodeId) :
    let before := (e.operateAll ops).2
    (∀ sent after, before.generate now peer = (.ok (some sent), after) → after.Emits peer sent) ∧
    ∀ m reply after, before.process now peer m = (.ok (.reply reply), after) →
      after.Emits peer reply ∧ ∀ r ∈ reply.records, r.hash ∉ hashesIn m.records := by
  intro before
  have kept : before.Kept := (Kept.start filled.filed started).operateAll sustained_kept ops
  refine ⟨fun sent after generated => generate_emits kept.engine generated, fun m reply after ran => ?_⟩
  have emits := (answer_of_reply (congrArg Prod.fst ran)).emits (kept.process sustained_kept now peer m).engine
  rwa [ran] at emits

/-- An engine with no budget at all answers to one that claims to have what nobody else knows: one
record goes and one hash is asked for, out of two of each. -/
theorem emissions_are_acceptable_of_no_budget :
    let e : Engine := ⟨{ Settings.standard with recordsPerMessage := 0, hashesWanted := 0, verify := false },
      .store, (Store.inMemory.write [Sample.trunk, Sample.twig]).2, ∅⟩
    let near : NodeId := ⟨.fill 32 1⟩
    let stray := Sample.plain 3 9 .zero
    let before := (e.operateAll [.generate 0 near]).2
    let processed := before.process 1 near
      (.second [stray.hash, ⟨.fill 32 8⟩] [stray.hash, ⟨.fill 32 7⟩] [stray])
    processed.1 = .ok (.reply (.third [⟨.fill 32 8⟩] [Sample.trunk])) ∧
      processed.2.Emits near (.third [⟨.fill 32 8⟩] [Sample.trunk]) ∧ Sample.trunk.hash ≠ stray.hash := by
  intro e near stray before processed
  have filled : Store.Reachable Set.univ (Store.inMemory.write [Sample.trunk, Sample.twig]).2 :=
    .write .inMemory fun _ _ => trivial
  have answered : processed.1 = .ok (.reply (.third [⟨.fill 32 8⟩] [Sample.trunk])) := by decide +kernel
  obtain ⟨-, answers⟩ := emissions_are_acceptable filled (rfl : Engine.start .store _ _ = .ok e)
    [.generate 0 near] 1 near
  obtain ⟨emits, fresh⟩ := answers _ _ processed.2 (Prod.ext answered rfl)
  refine ⟨answered, emits, ?_⟩
  simpa [Message.third, Message.second, hashesIn] using fresh

end Engine

end HashLog
