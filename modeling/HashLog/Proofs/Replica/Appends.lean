import HashLog.Proofs.Replica.Heads
import HashLog.Proofs.Exchange.Reachable
/-!
Appends with other writes in between. An append lists the ends of the log, reads their records and writes
a new record, in three steps (`Replica.listEnds`, `readEnds`, `writeOn`); a lock keeps other appends out
meanwhile, and nothing else. `Steady` says what holds between any two steps: each appended record went on
from the head of the log as it was when the ends were listed, it is in every log that came later, and the
append under way has a log before it that has all records appended so far. An append that nothing comes in
between is no different from its three steps (`append_cases`). So no two appends go on from the same record
(`appends_apart`).
-/
namespace HashLog

/-! ## Steps -/

/-- How far the append under way has come, if there is one. It carries the log as it was when the ends
were listed. -/
inductive Stage where
  | idle
  | listed (log : List Record) (ends : List Hash)
  | read (log : List Record) (heads : List Record)

def Stage.log? : Stage → Option (List Record)
  | idle => none
  | listed log _ | read log _ => some log

/-- An appended record, with the log as it was when the ends were listed. -/
structure Appended where
  record : Record
  log : List Record

/-- A replica with the append under way and all appended records in order. -/
structure Appender where
  replica : Replica
  stage : Stage
  done : List Appended

/-- One step at a replica: an exchange of messages or a write of received records, an append with nothing in
between, one of the three steps of an append, or the end of an append that is given up. -/
inductive AppendStep where
  | operate (op : Operation)
  | append (clock : Int) (value : List UInt8)
  | list
  | read
  | write (clock : Int) (value : List UInt8)
  | abandon

def AppendStep.records : AppendStep → List Record
  | operate op => op.records
  | append _ _ | list | read | write _ _ | abandon => []

namespace Appender

def start (replica : Replica) : Appender := ⟨replica, .idle, []⟩

/-- The replica with another engine. -/
def withEngine (a : Appender) (engine : Engine) : Appender :=
  { a with replica := { a.replica with engine } }

/-- Lists the ends of the log for an append, unless another one is under way. -/
def list (a : Appender) : Appender :=
  match a.stage, a.replica.keys with
  | .idle, some _ =>
    match a.replica.listEnds with
    | .ok (ends, replica) => { a with replica, stage := .listed a.replica.engine.store.log ends }
    | .error _ => a
  | _, _ => a

/-- Reads the records of the ends that were listed. An append that cannot read them is over. -/
def read (a : Appender) : Appender :=
  match a.stage with
  | .listed log ends =>
    match a.replica.readEnds ends with
    | .ok heads => { a with stage := .read log heads }
    | .error _ => { a with stage := .idle }
  | _ => a

/-- Writes the new record and ends the append. -/
def write (a : Appender) (clock : Int) (value : List UInt8) : Appender :=
  match a.stage, a.replica.keys with
  | .read log heads, some keys =>
    let (record, replica) := a.replica.writeOn keys clock value heads
    ⟨replica, .idle, a.done ++ [⟨record, log⟩]⟩
  | _, _ => a

/-- Appends a value, unless another append is under way. -/
def append (a : Appender) (clock : Int) (value : List UInt8) : Appender :=
  match a.stage, a.replica.append clock value with
  | .idle, .ok (record, replica) => ⟨replica, .idle, a.done ++ [⟨record, a.replica.engine.store.log⟩]⟩
  | _, _ => a

def step (a : Appender) : AppendStep → Appender
  | .operate op => a.withEngine (a.replica.engine.operate op).2
  | .append clock value => a.append clock value
  | .list => a.list
  | .read => a.read
  | .write clock value => a.write clock value
  | .abandon => { a with stage := .idle }

def run (a : Appender) (steps : List AppendStep) : Appender := steps.foldl step a

/-- An append comes to what its three steps in a row come to, if it comes to anything. -/
theorem append_cases (a : Appender) (clock : Int) (value : List UInt8) :
    a.append clock value = a ∨ a.append clock value = a.list.read.write clock value := by
  unfold append
  split
  · next record replica idle appended =>
    obtain ⟨keys, ends, listed, heads, own, first, second, last⟩ := Replica.append_eq_ok appended
    have signed : listed.keys = some keys := by
      obtain ⟨registry, rfl⟩ := Replica.listEnds_eq_ok first
      exact own
    have listing : a.list = ⟨listed, .listed a.replica.engine.store.log ends, a.done⟩ := by
      simp [list, idle, own, first]
    have reading : a.list.read = ⟨listed, .read a.replica.engine.store.log heads, a.done⟩ := by
      simp [listing, read, second]
    exact .inr (by simp [reading, write, signed, last])
  · exact .inl rfl

theorem run_concat (a : Appender) (before after : List AppendStep) :
    a.run (before ++ after) = (a.run before).run after := List.foldl_append

end Appender

/-! ## Engines that take up records -/

namespace Engine

variable {records : Set Record} {e e' e'' : Engine} {commits more : Commits} {batch : List Record}

/-- A later state of an engine that has taken up records of a set. -/
structure Accrues (records : Set Record) (e : Engine) (commits : Commits) (e' : Engine) (more : Commits) :
    Prop where
  holds : e'.Holds more
  durable : e'.store.medium.durable = e.store.medium.durable
  kind : e'.backend.kind = e.backend.kind
  log : commits.records <+: more.records
  gained : ∀ r ∈ more.records, r ∈ commits.records ∨
    ∃ original ∈ records, r = original.keptAs e.store.medium.durable

/-- A graph in memory takes up only records that the store keeps as well. -/
def Fed (records : Set Record) (e : Engine) : Prop :=
  e.backend.kind = .mirror → ∀ r ∈ records, r.refusedBy e.store.medium.durable = false

theorem Same.accrues (same : e.Same e') (holds : e.Holds commits) : e.Accrues records commits e' commits :=
  ⟨same.holds holds, by rw [same.medium], by rw [same.backend], List.prefix_rfl, fun _ => Or.inl⟩

theorem Accrues.same (accrues : e.Accrues records commits e' more) (same : e'.Same e'') :
    e.Accrues records commits e'' more :=
  ⟨same.holds accrues.holds, by rw [same.medium, accrues.durable], by rw [same.backend, accrues.kind],
    accrues.log, accrues.gained⟩

/-- A write takes up a batch, but for records that the store refuses. -/
theorem Holds.write_accrues (holds : e.Holds commits) (nonNull : ∀ r ∈ records, r.hash ≠ Hash.null)
    (fed : e.Fed records) (drawn : ∀ r ∈ batch, r ∈ records) : ∃ more,
      e.Accrues records commits (e.write batch).2 more ∧
        ∀ r ∈ batch, r.refusedBy e.store.medium.durable = false → r.hash ∈ hashesIn more.records := by
  have proper : ∀ r ∈ batch, r.hash ≠ Hash.null := fun r member => nonNull r (drawn r member)
  obtain ⟨more, written, later, added⟩ : ∃ more, (e.write batch).2.Holds more ∧
      e.store.Later commits (e.write batch).2.store more ∧
      more.records = addRecords commits.records ((batch.filter fun record =>
        !record.refusedBy e.store.medium.durable).map (Record.keptAs e.store.medium.durable)) := by
    cases kind : e.backend.kind with
    | mirror =>
      have taken := holds.store.takesAll proper fun r member refused => by
        rw [fed kind r (drawn r member)] at refused
        cases refused
      obtain ⟨more, written, later, added, -⟩ := holds.write proper taken
      exact ⟨more, written, later, added⟩
    | store =>
      obtain ⟨more, later, added⟩ := holds.store.write proper
      rw [← write_store] at later
      exact ⟨more, .of_plain (kind_write.trans kind) later.holds, later, added⟩
  refine ⟨more, ⟨written, later.durable, kind_write, ?_, ?_⟩, ?_⟩
  · rw [added]
    exact prefix_addRecords
  · intro r member
    rcases mem_addRecords (added ▸ member) with old | new
    · exact Or.inl old
    · obtain ⟨original, listed, rfl⟩ := List.mem_map.mp new
      exact Or.inr ⟨original, drawn original (List.mem_filter.mp listed).1, rfl⟩
  · intro r member kept
    rw [added, hashesIn_addRecords]
    refine Or.inr (mem_hashesIn.mpr ⟨_, List.mem_map_of_mem (List.mem_filter.mpr ⟨member, ?_⟩),
      Record.hash_keptAs⟩)
    rw [kept]
    rfl

/-- Whatever is asked of an engine, it takes up records that it was handed or none. -/
theorem Holds.operate_accrues (holds : e.Holds commits) (nonNull : ∀ r ∈ records, r.hash ≠ Hash.null)
    (fed : e.Fed records) {op : Operation} (drawn : ∀ r ∈ op.records, r ∈ records) :
    ∃ more, e.Accrues records commits (e.operate op).2 more := by
  cases op with
  | generate now peer => exact ⟨commits, (stays_generate e now peer).toSame.accrues holds⟩
  | process now peer m =>
    cases e.process_receives now peer m with
    | nothing stays => exact ⟨commits, stays.toSame.accrues holds⟩
    | all _ stays =>
      obtain ⟨more, accrues, -⟩ := holds.write_accrues nonNull fed drawn
      exact ⟨more, accrues.same stays.toSame⟩
  | write batch => exact (holds.write_accrues nonNull fed drawn).imp fun _ => And.left

theorem Accrues.fed (accrues : e.Accrues records commits e' more) (fed : e.Fed records) :
    e'.Fed records := by
  rw [Fed, accrues.kind, accrues.durable]
  exact fed

/-- A store that returns the records of a set as they were written holds no others. -/
theorem Accrues.drawn {durable : Bool} (accrues : e.Accrues records commits e' more)
    (same : e.store.medium.durable = durable) (asIs : ∀ r ∈ records, r.keptAs durable = r)
    (drawn : ∀ r ∈ commits.records, r ∈ records) : ∀ r ∈ more.records, r ∈ records := by
  intro r member
  rcases accrues.gained r member with old | ⟨original, listed, rfl⟩
  · exact drawn r old
  · rw [same, asIs original listed]
    exact listed

end Engine

/-! ## Between two steps -/

/-- The appended record is in the log, and so is all that was there before it. -/
structure Appended.Before (x : Appended) (log : List Record) : Prop where
  entered : x.record.hash ∈ hashesIn log
  grown : x.log <+: log

theorem Appended.Before.mono {x : Appended} {log more : List Record} (before : x.Before log)
    (grown : log <+: more) : x.Before more :=
  ⟨(grown.map Record.hash).subset before.entered, before.grown.trans grown⟩

namespace Appender

variable {records : Set Record} {durable : Bool} {a : Appender} {commits more : Commits} {e : Engine}

/-- What holds between two steps. -/
structure Steady (records : Set Record) (durable : Bool) (a : Appender) (commits : Commits) : Prop where
  holds : a.replica.engine.Holds commits
  kind : a.replica.engine.store.medium.durable = durable
  fed : a.replica.engine.Fed records
  drawn : (∀ r ∈ records, r.refusedBy durable = false ∧ r.keptAs durable = r) →
    ∀ r ∈ commits.records, r ∈ records
  done : ∀ x ∈ a.done, GoesOn x.log x.record ∧ x.Before commits.records
  apart : a.done.Pairwise fun x y => x.Before y.log
  base : ∀ log, a.stage.log? = some log → log <+: commits.records ∧ ∀ x ∈ a.done, x.Before log
  ends : ∀ log ends, a.stage = .listed log ends → ∀ hash, hash ∈ ends ↔ (linksOf log).Ends hash
  heads : ∀ log heads, a.stage = .read log heads → ∀ record, record ∈ heads ↔ Tip log record

namespace Steady

variable (steady : a.Steady records durable commits)
include steady

theorem withEngine (accrues : a.replica.engine.Accrues records commits e more) :
    (a.withEngine e).Steady records durable more where
  holds := accrues.holds
  kind := accrues.durable.trans steady.kind
  fed := accrues.fed steady.fed
  drawn kept := accrues.drawn steady.kind (fun r member => (kept r member).2) (steady.drawn kept)
  done x member := (steady.done x member).imp_right fun before => before.mono accrues.log
  apart := steady.apart
  base log under := (steady.base log under).imp_left fun grown => grown.trans accrues.log
  ends := steady.ends
  heads := steady.heads

theorem abandon : Steady records durable { a with stage := .idle } commits :=
  ⟨steady.holds, steady.kind, steady.fed, steady.drawn, steady.done, steady.apart, nofun, nofun, nofun⟩

theorem list : a.list.Steady records durable commits := by
  unfold Appender.list
  split
  · obtain ⟨ends, registry, found, tips⟩ := steady.holds.logicalEnds_eq
    have listed : a.replica.listEnds = .ok (ends, _) := bind_eq_ok.mpr ⟨_, mapError_eq_ok.mpr found, rfl⟩
    simp only [listed]
    have same : a.replica.engine.Same (a.replica.engine.withRegistry registry) := ⟨rfl, rfl, rfl⟩
    have after := steady.withEngine (same.accrues steady.holds)
    rw [steady.holds.store.log_eq]
    refine ⟨after.holds, after.kind, after.fed, after.drawn, after.done, after.apart, ?_, ?_, nofun⟩
    · rintro log under
      obtain rfl := Option.some.inj under
      exact ⟨List.prefix_rfl, fun x member => (steady.done x member).2⟩
    · rintro log listed same
      obtain ⟨rfl, rfl⟩ := Stage.listed.inj same
      exact tips
  · exact steady

theorem read : a.read.Steady records durable commits := by
  unfold Appender.read
  split
  · rename_i log ends under
    have base := steady.base log (by rw [under]; rfl)
    obtain ⟨heads, found, tips⟩ :=
      steady.holds.store.read_tips base.1 (steady.ends log ends under)
    have readEnds : a.replica.readEnds ends = .ok heads := mapError_eq_ok.mpr found
    simp only [readEnds]
    refine ⟨steady.holds, steady.kind, steady.fed, steady.drawn, steady.done, steady.apart, ?_, nofun, ?_⟩
    · rintro log' under'
      obtain rfl := Option.some.inj under'
      exact base
    · rintro log' heads' same
      obtain ⟨rfl, rfl⟩ := Stage.read.inj same
      exact tips
  · exact steady

/-- The record is written on top of the log that was listed, to which records may have come since. -/
theorem write (nonNull : ∀ r ∈ records, r.hash ≠ Hash.null) {clock : Int} {value : List UInt8}
    (own : ∀ x ∈ (a.write clock value).done, x.record ∈ records) :
    ∃ more, (a.write clock value).Steady records durable more := by
  unfold Appender.write at own ⊢
  split at own
  · rename_i log heads keys under signed
    obtain ⟨grown, old⟩ := steady.base log (by rw [under]; rfl)
    have goesOn := Replica.draft_goesOn (steady.heads log heads under) keys clock value
    have drawn := own _ (List.mem_append_right _ (List.mem_singleton_self _))
    have listed : ∀ r ∈ [Replica.draft keys clock value heads], r ∈ records :=
      fun r member => List.mem_singleton.mp member ▸ drawn
    obtain ⟨more, accrues, entered⟩ := steady.holds.write_accrues nonNull steady.fed listed
    have new : (⟨Replica.draft keys clock value heads, log⟩ : Appended).Before more.records :=
      ⟨entered _ (List.mem_singleton_self _) Replica.refusedBy_draft, grown.trans accrues.log⟩
    have after := steady.withEngine accrues
    refine ⟨more, after.holds, after.kind, after.fed, after.drawn, ?_, ?_, nofun, nofun, nofun⟩
    · intro x member
      rcases List.mem_append.mp member with before | last
      · exact after.done x before
      · obtain rfl := List.mem_singleton.mp last
        exact ⟨goesOn, new⟩
    · refine List.pairwise_append.mpr ⟨after.apart, List.pairwise_singleton _ _, ?_⟩
      intro x member y last
      obtain rfl := List.mem_singleton.mp last
      exact old x member
  · exact ⟨commits, steady⟩

/-- Nothing comes in between the steps of an append, so it keeps what they keep. -/
theorem append (nonNull : ∀ r ∈ records, r.hash ≠ Hash.null) {clock : Int} {value : List UInt8}
    (own : ∀ x ∈ (a.append clock value).done, x.record ∈ records) :
    ∃ more, (a.append clock value).Steady records durable more := by
  rcases a.append_cases clock value with same | same
  · exact ⟨commits, by rw [same]; exact steady⟩
  · rw [same] at own ⊢
    exact steady.list.read.write nonNull own

theorem step (nonNull : ∀ r ∈ records, r.hash ≠ Hash.null) {event : AppendStep}
    (drawn : ∀ r ∈ event.records, r ∈ records) (own : ∀ x ∈ (a.step event).done, x.record ∈ records) :
    ∃ more, (a.step event).Steady records durable more := by
  cases event with
  | operate op =>
    obtain ⟨more, accrues⟩ := steady.holds.operate_accrues nonNull steady.fed drawn
    exact ⟨more, steady.withEngine accrues⟩
  | append clock value => exact steady.append nonNull own
  | list => exact ⟨commits, steady.list⟩
  | read => exact ⟨commits, steady.read⟩
  | write clock value => exact steady.write nonNull own
  | abandon => exact ⟨commits, steady.abandon⟩

end Steady

/-- What was appended stays in the account. -/
theorem done_step (a : Appender) (event : AppendStep) : a.done <+: (a.step event).done := by
  cases event with
  | operate op => exact List.prefix_rfl
  | append clock value =>
    change a.done <+: (a.append clock value).done
    unfold append
    split
    · exact List.prefix_append _ _
    · exact List.prefix_rfl
  | list =>
    change a.done <+: a.list.done
    unfold list
    split
    · split <;> exact List.prefix_rfl
    · exact List.prefix_rfl
  | read =>
    change a.done <+: a.read.done
    unfold read
    split
    · split <;> exact List.prefix_rfl
    · exact List.prefix_rfl
  | write clock value =>
    change a.done <+: (a.write clock value).done
    unfold write
    split
    · exact List.prefix_append _ _
    · exact List.prefix_rfl
  | abandon => exact List.prefix_rfl

theorem done_run (a : Appender) (events : List AppendStep) : a.done <+: (a.run events).done := by
  induction events generalizing a with
  | nil => exact List.prefix_rfl
  | cons event rest ih => exact (done_step a event).trans (ih (a.step event))

theorem Steady.run (steady : a.Steady records durable commits) (nonNull : ∀ r ∈ records, r.hash ≠ Hash.null)
    {events : List AppendStep} (drawn : ∀ event ∈ events, ∀ r ∈ event.records, r ∈ records)
    (own : ∀ x ∈ (a.run events).done, x.record ∈ records) :
    ∃ more, (a.run events).Steady records durable more := by
  induction events generalizing a commits with
  | nil => exact ⟨commits, steady⟩
  | cons event rest ih =>
    obtain ⟨here, later⟩ := List.forall_mem_cons.mp drawn
    obtain ⟨more, stepped⟩ := steady.step nonNull here fun x member =>
      own x ((done_run (a.step event) rest).subset member)
    exact ih stepped later own

/-- A replica that has just been started. -/
theorem steady_start {kind : BackendKind} {store : Store} {settings : Settings} {r : Replica}
    (nonNull : ∀ r ∈ records, r.hash ≠ Hash.null) (filled : store.Reachable records)
    (kept : kind = .mirror → ∀ r ∈ records, r.refusedBy store.medium.durable = false)
    (started : Engine.start kind store settings = .ok r.engine) :
    ∃ commits, (start r).Steady records store.medium.durable commits := by
  obtain ⟨commits, stored, drawn⟩ := filled.holds nonNull
  obtain ⟨holds, same, -, -⟩ := Engine.start_holds stored started
  subst same
  refine ⟨commits, holds, rfl, fun mirror => kept ?_, drawn, nofun, .nil, nofun, nofun, nofun⟩
  exact (Engine.kind_start started).symm.trans mirror

/-- What holds between any two steps of a replica that was started. -/
theorem steady_run {kind : BackendKind} {store : Store} {settings : Settings} {r : Replica}
    (nonNull : ∀ r ∈ records, r.hash ≠ Hash.null) (filled : store.Reachable records)
    (kept : kind = .mirror → ∀ r ∈ records, r.refusedBy store.medium.durable = false)
    (started : Engine.start kind store settings = .ok r.engine) {steps : List AppendStep}
    (drawn : ∀ event ∈ steps, ∀ r ∈ event.records, r ∈ records)
    (own : ∀ x ∈ ((start r).run steps).done, x.record ∈ records) :
    ∃ commits, ((start r).run steps).Steady records store.medium.durable commits := by
  obtain ⟨commits, steady⟩ := steady_start nonNull filled kept started
  exact steady.run nonNull drawn own

/-! ## Appends over records of a consistent set -/

namespace Steady

variable {x : Appended} (steady : a.Steady records durable commits)
  (kept : ∀ r ∈ records, r.refusedBy durable = false ∧ r.keptAs durable = r)
include steady kept

theorem log_drawn (member : x ∈ a.done) : ∀ r ∈ x.log, r ∈ records := fun r listed =>
  steady.drawn kept r ((steady.done x member).2.grown.subset listed)

variable (consistent : Consistent records)
include consistent

/-- An append starts a log only where nothing is stored, and goes on from the head otherwise. -/
theorem prev_eq (member : x ∈ a.done) : (x.record.prev = Hash.null ↔ x.log = []) ∧
    (x.log ≠ [] → ∃ head, IsHead x.log head ∧ x.record.prev = head.hash) := by
  have drawn := steady.log_drawn kept member
  rcases (steady.done x member).1 with ⟨none, starts, -⟩ | ⟨head, isHead, names, -⟩
  · have empty : x.log = [] := by
      by_contra some
      obtain ⟨tip, isTip⟩ := exists_tip consistent drawn some
      exact none tip isTip
    exact ⟨iff_of_true starts empty, fun some => absurd empty some⟩
  · have listed : head ∈ x.log := isHead.1.1
    refine ⟨iff_of_false ?_ (List.ne_nil_of_mem listed), fun _ => ⟨head, isHead, names⟩⟩
    rw [names]
    exact consistent.no_null head (drawn head listed)

variable (own : ∀ x ∈ a.done, x.record ∈ records)
include own

/-- Where an appended record is in the log by its hash, it is there itself. -/
theorem mem_of_before {log : List Record} (member : x ∈ a.done) (before : x.Before log)
    (within : log <+: commits.records) : x.record ∈ log := by
  obtain ⟨r, listed, same⟩ := mem_hashesIn.mp before.entered
  have drawn := steady.drawn kept r (within.subset listed)
  exact consistent.unique r drawn x.record (own x member) same ▸ listed

theorem read_eq (member : x ∈ a.done) :
    a.replica.engine.store.read [x.record.hash] = .ok [x.record] := by
  have before := (steady.done x member).2
  have logged := steady.mem_of_before kept consistent own member before List.prefix_rfl
  have found := (find?_eq_some steady.holds.store.proper.nodup).mpr ⟨logged, rfl⟩
  rw [steady.holds.store.read_eq]
  simp only [List.filterMap_cons, found, List.filterMap_nil]

/-- An append has the ones before it in its log, so it cannot go on from where one of them did. -/
theorem nodup_prev : (a.done.map fun x => x.record.prev).Nodup := by
  rw [List.Nodup, List.pairwise_map]
  refine steady.apart.imp_of_mem ?_
  intro x y first second before same
  obtain ⟨goesOn, whole⟩ := steady.done y second
  have logged := steady.mem_of_before kept consistent own first before whole.grown
  rcases goesOn with ⟨none, -⟩ | ⟨head, ⟨⟨-, unnamed⟩, -⟩, names, -⟩
  · obtain ⟨tip, isTip⟩ :=
      exists_tip consistent (steady.log_drawn kept second) (List.ne_nil_of_mem logged)
    exact none tip isTip
  · exact unnamed x.record logged (same.trans names)

end Steady

end Appender

/-- Appends of one replica never go on from the same record and are never lost, whatever else is written
between any two of their steps. Each names the head of the log as it was when it listed the ends: the tip
with the greatest number and, among several, the greatest hash; only where nothing was stored does it
start a log. What was appended is read back from then on. -/
theorem appends_apart {records : Set Record} {kind : BackendKind} {store : Store} {settings : Settings}
    {r : Replica} (consistent : Consistent records) (filled : store.Reachable records)
    (kept : ∀ r ∈ records, store.medium.Keeps r)
    (started : Engine.start kind store settings = .ok r.engine) (before after : List AppendStep)
    (drawn : ∀ event ∈ before ++ after, ∀ r ∈ event.records, r ∈ records)
    (own : ∀ x ∈ ((Appender.start r).run (before ++ after)).done, x.record ∈ records) :
    (∀ x ∈ ((Appender.start r).run before).done,
      (x.record.prev = Hash.null ↔ x.log = []) ∧
      (x.log ≠ [] → ∃ head, IsHead x.log head ∧ x.record.prev = head.hash) ∧
      ((Appender.start r).run (before ++ after)).replica.engine.store.read [x.record.hash] =
        .ok [x.record]) ∧
    (((Appender.start r).run before).done.map fun x => x.record.prev).Nodup := by
  have taken : kind = .mirror → ∀ r ∈ records, r.refusedBy store.medium.durable = false :=
    fun _ r member => (kept r member).1
  have grown : ((Appender.start r).run before).done <+: ((Appender.start r).run (before ++ after)).done := by
    rw [Appender.run_concat]
    exact Appender.done_run _ after
  have own' : ∀ x ∈ ((Appender.start r).run before).done, x.record ∈ records := fun x member =>
    own x (grown.subset member)
  obtain ⟨now, steady⟩ := Appender.steady_run consistent.no_null filled taken started
    (fun event member => drawn event (List.mem_append_left _ member)) own'
  obtain ⟨later, steady'⟩ := Appender.steady_run consistent.no_null filled taken started drawn own
  refine ⟨fun x member => ?_, steady.nodup_prev kept consistent own'⟩
  obtain ⟨starts, goesOn⟩ := steady.prev_eq kept consistent member
  exact ⟨starts, goesOn, steady'.read_eq kept consistent own (grown.subset member)⟩

/-- Two appends; while the first one is under way, another first record comes in. The second one is made with
nothing in between. -/
theorem appends_apart_of_received :
    let keys : Keypair := ⟨.fill 32 3⟩
    let engine : Engine := ⟨.standard, .mirror .empty 0, .inMemory, ∅⟩
    let r : Replica := ⟨⟨.fill 32 2⟩, .standard, some keys, .ofMode .cycle, engine⟩
    let steps : List AppendStep := [.list, .operate (.write [Sample.trunk]), .read, .write 0 [1],
      .append 0 [2]]
    let now := (Appender.start r).run steps
    now.done.map (fun x => x.record.header.recNo) = [1, 2] ∧
      (now.done.map fun x => x.record.prev).Nodup ∧
      ∀ x ∈ now.done, now.replica.engine.store.read [x.record.hash] = .ok [x.record] := by
  intro keys engine r steps now
  let all : List Record := Sample.trunk :: now.done.map Appended.record
  have numbers : now.done.map (fun x => x.record.header.recNo) = [1, 2] := by decide +kernel
  have apart : (hashesIn all).Nodup := by decide +kernel
  have proper : ∀ record ∈ all, record.hash ≠ Hash.null := by decide +kernel
  let rank (hash : Hash) : Nat := (Hash.null :: hashesIn all).idxOf hash
  have falls : ∀ record ∈ all, rank record.prev < rank record.hash := by decide +kernel
  have consistent : Consistent {record | record ∈ all} :=
    .of_rank (fun a first b second => List.inj_on_of_nodup_map apart first second) proper rank falls
  have kept : ∀ record ∈ {record | record ∈ all}, Store.inMemory.medium.Keeps record :=
    fun record _ => ⟨rfl, rfl⟩
  have drawn : ∀ event ∈ steps ++ [], ∀ record ∈ event.records, record ∈ all := by
    simp [steps, AppendStep.records, Operation.records, all]
  obtain ⟨each, once⟩ := appends_apart (r := r) consistent .inMemory kept
    (rfl : Engine.start .mirror .inMemory .standard = .ok engine) steps [] drawn
    fun x member => List.mem_cons_of_mem _ (List.mem_map_of_mem member)
  have whole : (Appender.start r).run (steps ++ []) = now := congrArg _ (List.append_nil steps)
  rw [whole] at each
  exact ⟨numbers, once, fun x member => (each x member).2.2⟩

end HashLog
