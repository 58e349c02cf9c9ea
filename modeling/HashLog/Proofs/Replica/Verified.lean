import HashLog.Proofs.Exchange.Reachable
import HashLog.Proofs.Replica.Heads
import HashLog.Proofs.Store.MemoryWrites
/-!
What gets into the log of a replica in memory that checks what it receives. Each action adds to the log
and takes nothing from it, and what it adds was appended here or passes the checks (`Gains`, kept by
`act_gains`); a whole run then does no more than that (`actAll_gains`), whatever peers send in whatever
order and at whatever time.
-/
namespace HashLog

/-- A store in memory indexes its records, however it came about. -/
theorem Store.Reachable.indexed {records : Set Record} {s : Store} (reached : s.Reachable records)
    (memory : s.medium.durable = false) : s.Indexed := by
  refine reached.of_write (P := fun medium => medium.durable = false → ∃ m, medium = .memory m ∧ m.Indexed)
    (fun _ => indexed_inMemory) nofun (fun {s batch} _ _ indexed memory => ?_) memory
  rw [durable_write] at memory
  exact (Indexed.write (s := s) (indexed memory) batch).1

namespace Replica

/-- What happens at a replica. -/
inductive Action where
  | generate (now : Nat) (peer : NodeId)
  | process (now : Nat) (peer : NodeId) (m : Message)
  | append (clock : Int) (value : List UInt8)

/-- The records that an action appends to the log, and the replica after it. -/
def act (r : Replica) : Action → List Record × Replica
  | .generate now peer => ([], { r with engine := (r.engine.generate now peer).2 })
  | .process now peer m => ([], { r with engine := (r.engine.process now peer m).2 })
  | .append clock value =>
    match r.append clock value with
    | .ok (record, r) => ([record], r)
    | .error _ => ([], r)

/-- Actions one after the other, with all that they append. -/
def actAll : Replica → List Action → List Record × Replica
  | r, [] => ([], r)
  | r, action :: rest =>
    let (appended, r) := r.act action
    let (more, r) := r.actAll rest
    (appended ++ more, r)

theorem actAll_append (r : Replica) (before after : List Action) :
    (r.actAll (before ++ after)).2 = ((r.actAll before).2.actAll after).2 := by
  induction before generalizing r with
  | nil => rfl
  | cons action rest ih => exact ih _

end Replica

namespace Engine

variable {e e' e'' : Engine} {appended more batch : List Record}

/-- A later state of an engine on a store in memory: the log has grown by appended records and valid
ones. -/
structure Gains (e : Engine) (appended : List Record) (e' : Engine) : Prop where
  settings : e'.settings = e.settings
  indexed : e'.store.Indexed
  log : ∃ batch, e'.store.log = addRecords e.store.log batch ∧
    ∀ record ∈ batch, record ∈ appended ∨ record.validate e.settings.writer = .ok ()

theorem Same.gains (same : e.Same e') (indexed : e.store.Indexed) : e.Gains appended e' :=
  ⟨same.settings, indexed.congr same.medium, [], Store.log_congr same.medium,
    fun _ member => nomatch member⟩

theorem Gains.trans (first : e.Gains appended e') (second : e'.Gains more e'') :
    e.Gains (appended ++ more) e'' := by
  obtain ⟨before, grown, entered⟩ := first.log
  obtain ⟨after, grown', entered'⟩ := second.log
  refine ⟨second.settings.trans first.settings, second.indexed, before ++ after, ?_, ?_⟩
  · rw [addRecords_append, ← grown, grown']
  · intro record member
    rcases List.mem_append.mp member with old | new
    · exact (entered record old).imp_left (List.mem_append_left more)
    · rw [first.settings] at entered'
      exact (entered' record new).imp_left (List.mem_append_right appended)

theorem write_gains (indexed : e.store.Indexed)
    (entered : ∀ record ∈ batch, record ∈ appended ∨ record.validate e.settings.writer = .ok ()) :
    e.Gains appended (e.write batch).2 := by
  obtain ⟨after, grown⟩ := indexed.write batch
  rw [← write_store] at after grown
  exact ⟨write_settings, after, batch, grown, entered⟩

/-- A message brings valid records only. -/
theorem Receives.gains {peer : NodeId} (received : e.Receives peer batch e') (indexed : e.store.Indexed)
    (verify : e.settings.verify = true) : e.Gains [] e' := by
  cases received with
  | nothing stays => exact stays.toSame.gains indexed
  | all checked stays =>
    have written : e.Gains [] (e.write batch).2 := write_gains indexed fun record member =>
      Or.inr (Settings.validate_of_checkRecords verify checked record member)
    exact written.trans (stays.toSame.gains written.indexed)

end Engine

namespace Replica

variable {r r' : Replica}

/-- An appended record is written by itself, and its accuracy is zero. -/
theorem append_writes {clock : Int} {value : List UInt8} {record : Record}
    (appended : r.append clock value = .ok (record, r')) : ∃ registry,
      r' = { r with engine := ((r.engine.withRegistry registry).write [record]).2 } ∧
        record.header.accuracy = .zero := by
  obtain ⟨keys, ends, listed, heads, -, first, -, last⟩ := append_eq_ok appended
  obtain ⟨registry, rfl⟩ := listEnds_eq_ok first
  obtain ⟨rfl, rfl⟩ := Prod.mk.inj last
  exact ⟨registry, rfl, rfl⟩

private theorem append_gains {clock : Int} {value : List UInt8} {record : Record}
    (appended : r.append clock value = .ok (record, r')) (indexed : r.engine.store.Indexed) :
    r.engine.Gains [record] r'.engine := by
  obtain ⟨registry, rfl, -⟩ := append_writes appended
  have before : r.engine.Gains [] (r.engine.withRegistry registry) :=
    Engine.Same.gains ⟨rfl, rfl, rfl⟩ indexed
  exact before.trans (Engine.write_gains before.indexed fun record member => Or.inl member)

/-- What one action adds to the log was appended by it or is valid, and nothing is taken away. -/
theorem act_gains (indexed : r.engine.store.Indexed) (verify : r.engine.settings.verify = true)
    (action : Action) : r.engine.Gains (r.act action).1 (r.act action).2.engine := by
  cases action with
  | generate now peer => exact (Engine.stays_generate _ now peer).toSame.gains indexed
  | process now peer m => exact (r.engine.process_receives now peer m).gains indexed verify
  | append clock value =>
    rw [act]
    split
    · rename_i record after appended
      exact append_gains appended indexed
    · exact (Engine.Same.refl _).gains indexed

theorem actAll_gains (indexed : r.engine.store.Indexed) (verify : r.engine.settings.verify = true)
    (actions : List Action) : r.engine.Gains (r.actAll actions).1 (r.actAll actions).2.engine := by
  induction actions generalizing r with
  | nil => exact (Engine.Same.refl _).gains indexed
  | cons action rest ih =>
    have first := act_gains indexed verify action
    exact first.trans (ih first.indexed (first.settings ▸ verify))

end Replica

/-- Nothing unverified enters a log in memory and nothing leaves it. Whatever peers send to a replica
that checks records, in any order and at any time, each record of its log was there at the start, was
appended here or passes the checks; and what is in the log stays in its place, and is read back under
its hash as it was, even where others of the same hash arrive. -/
theorem log_admits_verified {kind : BackendKind} {store : Store} {settings : Settings} {r : Replica}
    (filled : store.Reachable Set.univ) (memory : store.medium.durable = false)
    (started : Engine.start kind store settings = .ok r.engine) (verify : settings.verify = true)
    (before after : List Replica.Action) :
    (∀ record ∈ (r.actAll before).2.engine.store.log, record ∈ store.log ∨
      record ∈ (r.actAll before).1 ∨ record.validate settings.writer = .ok ()) ∧
    (r.actAll before).2.engine.store.log <+: (r.actAll (before ++ after)).2.engine.store.log ∧
    ∀ record ∈ (r.actAll before).2.engine.store.log,
      (r.actAll (before ++ after)).2.engine.store.read [record.hash] = .ok [record] := by
  obtain ⟨same, configured⟩ : r.engine.store = store ∧ r.engine.settings = settings := by
    cases kind with
    | store =>
      rw [← Except.ok.inj started]
      exact ⟨rfl, rfl⟩
    | mirror =>
      obtain ⟨stored, -, loaded⟩ := map_eq_ok.mp started
      rw [← loaded]
      exact ⟨rfl, rfl⟩
  subst same configured
  have first := Replica.actAll_gains (filled.indexed memory) verify before
  have second := Replica.actAll_gains first.indexed (first.settings ▸ verify) after
  rw [← Replica.actAll_append] at second
  have kept : (r.actAll before).2.engine.store.log <+:
      (r.actAll (before ++ after)).2.engine.store.log := by
    obtain ⟨batch, grown, -⟩ := second.log
    rw [grown]
    exact prefix_addRecords
  refine ⟨?_, kept, fun record member => second.indexed.read_eq (kept.subset member)⟩
  intro record member
  obtain ⟨batch, grown, entered⟩ := first.log
  rw [grown] at member
  exact (mem_addRecords member).imp_right (entered record)

/-- A peer answers with a forged record under the hash of a stored one. -/
theorem log_admits_verified_of_forged :
    let store := (Store.inMemory.write [Sample.trunk]).2
    let peer : NodeId := ⟨.fill 32 1⟩
    let engine : Engine := ⟨.standard, .store, store, ∅⟩
    let r : Replica := ⟨⟨.fill 32 2⟩, .standard, some ⟨.fill 32 3⟩, .ofMode .cycle, engine⟩
    let forged : Record := { Sample.trunk with value := [1] }
    let actions : List Replica.Action :=
      [.generate 0 peer, .process 0 peer (.second [] [] [forged])]
    forged ∉ (r.actAll actions).2.engine.store.log ∧
      ∀ clock value, (r.actAll (actions ++ [.append clock value])).2.engine.store.read
        [Sample.trunk.hash] = .ok [Sample.trunk] := by
  intro store peer engine r forged actions
  have filled : store.Reachable Set.univ := .write .inMemory fun _ _ => Set.mem_univ _
  have kept := log_admits_verified (r := r) filled rfl (rfl : Engine.start .store store .standard = _) rfl
  refine ⟨?_, ?_⟩
  · intro member
    rcases (kept actions []).1 forged member with stored | appended | valid
    · revert stored
      decide
    · cases appended
    · revert valid
      decide +kernel
  · intro clock value
    have present : Sample.trunk ∈ store.log := by decide
    have last := (kept [] (actions ++ [.append clock value])).2.2 Sample.trunk present
    rwa [List.nil_append] at last

end HashLog
