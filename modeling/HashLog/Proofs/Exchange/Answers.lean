import HashLog.Proofs.Exchange.Engines
/-!
Answers as plans held to budgets. Each of the three answers reads the records of its plan from the
store, the first ones that the budget allows; the frontier that goes with it is that of the
snapshot. No budget exceeds what a receiver accepts, so whatever is sent passes the other side's
check of its form.
-/
namespace HashLog

theorem Settings.recordBudget_pos {s : Settings} : 0 < s.recordBudget :=
  Nat.le_max_left _ _

theorem Settings.recordBudget_le {s : Settings} : s.recordBudget ≤ Message.maxRecords :=
  Nat.max_le.mpr ⟨by decide, Nat.min_le_right _ _⟩

theorem Settings.wantedBudget_pos {s : Settings} : 0 < s.wantedBudget :=
  Nat.le_max_left _ _

theorem Settings.wantedBudget_le {s : Settings} : s.wantedBudget ≤ Message.maxWanted :=
  Nat.max_le.mpr ⟨by decide, Nat.min_le_right _ _⟩

/-- A message that carries a plan, held to the budgets. -/
structure Message.Carries (m : Message) (records : Set Record) (settings : Settings) (phase : Phase)
    (plan : Plan) : Prop where
  phase : m.phase = phase
  valid : m.validate = .ok ()
  sent : hashesIn m.records = plan.send.take settings.recordBudget
  asked : m.wanted = plan.wanted.take settings.wantedBudget
  drawn : ∀ r ∈ m.records, r ∈ records

theorem Message.Carries.sent_subset {m : Message} {records : Set Record} {settings : Settings}
    {phase : Phase} {plan : Plan} (carries : m.Carries records settings phase plan) {hash : Hash}
    (sent : hash ∈ hashesIn m.records) : hash ∈ plan.send :=
  List.mem_of_mem_take (carries.sent ▸ sent)

/-- A message that answers by a plan made over a view. -/
structure Message.Answers (m : Message) (records : Set Record) (settings : Settings) (phase : Phase)
    (shown : Finset Hash) (view : GraphView) (planning : Nat → Except Cycle Plan) (plan : Plan) :
    Prop where
  pictures : view.Pictures records shown
  planned : planning settings.traversalLimit = .ok plan
  carries : m.Carries records settings phase plan

/-- A message within the bounds that fills only the fields of its phase is well formed. -/
theorem Message.validate_ok {m : Message} (frontier : m.phase.mayCarryFrontier = true ∨
      (m.begins = [] ∧ m.ends = [])) (records : m.phase.mayCarryRecords = true ∨ m.records = [])
    (wanted : m.phase.mayCarryWanted = true ∨ m.wanted = []) (fewWanted : m.wanted.length ≤ maxWanted)
    (fewRecords : m.records.length ≤ maxRecords) : m.validate = .ok () := by
  unfold validate
  rw [if_neg, if_neg, if_neg, if_neg (Nat.not_lt.mpr fewWanted), if_neg (Nat.not_lt.mpr fewRecords)]
  · rcases wanted with may | none <;> simp [*]
  · rcases records with may | none <;> simp [*]
  · rcases frontier with may | ⟨noBegins, noEnds⟩ <;> simp [*]

namespace Engine

variable {e : Engine} {s : Snapshot} {m : Message} {received : HashSet} {commits : Commits}

theorem answerFirst_eq : e.answerFirst s m =
    match (s.view e.store).planFirst m e.settings.traversalLimit with
    | .error cycle => .error (.cycleDetected cycle.repeated)
    | .ok plan => (e.readToSend plan.send).map
        (Message.second s.frontier.beginList s.frontier.endList) := by
  unfold answerFirst GraphView.planFirst
  cases (s.view e.store).offer m.begins m.ends e.settings.traversalLimit with
  | error cycle => rfl
  | ok offer =>
    simp only [orCycle, bind, Except.bind, Except.map]
    cases e.readToSend _ <;> rfl

theorem answerSecond_eq : e.answerSecond s received m =
    match (s.view e.store).planSecond received m e.settings.traversalLimit with
    | .error cycle => .error (.cycleDetected cycle.repeated)
    | .ok plan => (e.readToSend plan.send).map
        (Message.third (plan.wanted.take e.settings.wantedBudget)) := by
  have frontier : (s.view e.store).frontier = s.frontier := rfl
  unfold answerSecond GraphView.planSecond
  simp only [GraphView.unreached, frontier]
  cases (s.view e.store).offer m.begins m.ends e.settings.traversalLimit with
  | error cycle => rfl
  | ok offer =>
    simp only [orCycle, bind, Except.bind]
    cases (s.view e.store).component _ e.settings.traversalLimit with
    | error cycle => rfl
    | ok component =>
      simp only [Except.map]
      cases e.readToSend _ <;> rfl

theorem answerThird_eq : e.answerThird s received m =
    match (s.view e.store).planThird received m e.settings.traversalLimit with
    | .error cycle => .error (.cycleDetected cycle.repeated)
    | .ok plan => (e.readToSend plan.send).map Message.fourth := by
  unfold answerThird GraphView.planThird
  dsimp only
  cases (s.view e.store).component _ e.settings.traversalLimit with
  | error cycle => rfl
  | ok component =>
    simp only [orCycle, bind, Except.bind, Except.map]
    cases e.readToSend _ <;> rfl

/-- Reading finds a record for every hash that is stored, as far as the budget goes. -/
theorem readToSend_ok (holds : e.store.Holds commits) {hashes : List Hash}
    (stored : ∀ hash ∈ hashes, hash ∈ hashesIn commits.records) : ∃ records,
    e.readToSend hashes = .ok records ∧ hashesIn records = hashes.take e.settings.recordBudget ∧
      ∀ r ∈ records, r ∈ commits.records := by
  refine ⟨_, by rw [readToSend, holds.read_eq], ?_, ?_⟩
  · have known : ∀ hash ∈ hashes.take e.settings.recordBudget, hash ∈ hashesIn commits.records :=
      fun hash member => stored hash (List.mem_of_mem_take member)
    revert known
    generalize hashes.take e.settings.recordBudget = few
    intro known
    induction few with
    | nil => rfl
    | cons hash rest ih =>
      obtain ⟨r, member, same⟩ := mem_hashesIn.mp (known hash List.mem_cons_self)
      have found := (find?_eq_some holds.proper.nodup).mpr ⟨member, same⟩
      simp only [List.filterMap_cons, found, hashesIn, List.map_cons, same] at ih ⊢
      rw [ih fun hash member => known hash (List.mem_cons_of_mem _ member)]
  · intro r member
    obtain ⟨hash, -, found⟩ := List.mem_filterMap.mp member
    exact List.mem_of_find?_eq_some found

end Engine

end HashLog
