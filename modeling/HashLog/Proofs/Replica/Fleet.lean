import HashLog.Proofs.Replica.Postings
import HashLog.Proofs.Store.Listings
import HashLog.Proofs.Store.TableWrites
import Mathlib.Data.Set.Lattice
import Mathlib.Logic.Function.Basic
/-!
Replicas on a network that loses, delays, repeats and reorders messages. A conversation has no number,
so a message of an earlier one may be taken for one of a later one; no handler relies on what its
peer's snapshot was, though. Records are sent only from a store that holds them, and enter a store
only from a message or from its own replica (`Sound.step`), so by induction over a run nothing is
made up and nothing is lost (`fleet_keeps_and_invents_nothing`).
-/
namespace HashLog

/-- Replicas with all messages that they have sent and all records that they have appended. -/
structure Fleet (ι : Type) where
  replica : ι → Replica
  postings : List Posting
  appended : ι → List Record

/-- What happens in a fleet. The network is as it may be at that moment. -/
inductive FleetEvent (ι : Type) where
  | heartbeat (place : ι) (now drawn : Nat) (network : Network)
  | append (place : ι) (clock : Int) (value : List UInt8)
  /-- A replica is handed a message of this number, if it was sent to it, however often and late. -/
  | deliver (place : ι) (number now : Nat) (network : Network)

namespace Fleet

variable {ι : Type}

/-- The log of one replica. -/
def log (fleet : Fleet ι) (place : ι) : List Record := (fleet.replica place).engine.store.log

section Run

variable [DecidableEq ι]

def step (fleet : Fleet ι) : FleetEvent ι → Fleet ι
  | .heartbeat place now drawn network =>
    let r := fleet.replica place
    { fleet with
      replica := Function.update fleet.replica place (r.heartbeat now drawn network).2.1
      postings := fleet.postings ++ r.heartbeatPostings now drawn network }
  | .append place clock value =>
    match (fleet.replica place).append clock value with
    | .ok (record, r) =>
      { fleet with
        replica := Function.update fleet.replica place r
        appended := Function.update fleet.appended place (fleet.appended place ++ [record]) }
    | .error _ => fleet
  | .deliver place number now network =>
    let r := fleet.replica place
    match fleet.postings[number]? with
    | some posting =>
      if posting.receiver = r.id then
        { fleet with
          replica := Function.update fleet.replica place
            (r.handle now posting.sender posting.message network).2.1
          postings := fleet.postings ++ r.handlePostings now posting.sender posting.message network }
      else fleet
    | none => fleet

def run (fleet : Fleet ι) (events : List (FleetEvent ι)) : Fleet ι := events.foldl step fleet

end Run

/-- All records of the logs. -/
def stored (fleet : Fleet ι) : Set Record := {r | ∃ place, r ∈ fleet.log place}

/-- The records that were stored at the start, or have been appended by some replica. -/
def known (fleet : Fleet ι) (stored : Set Record) : Set Record :=
  {r | r ∈ stored ∨ ∃ place, r ∈ fleet.appended place}

end Fleet

/-- A later state of a store: the log has grown by records of a batch. -/
structure Store.Extends (s : Store) (batch : List Record) (s' : Store) : Prop where
  lists : s'.Lists s'.log
  durable : s'.medium.durable = s.medium.durable
  grown : s.log <+: s'.log
  entered : ∀ r ∈ s'.log, r ∈ s.log ∨ r ∈ batch

namespace Store

variable {s s' : Store} {batch : List Record}

theorem Extends.of_same (lists : s.Lists s.log) (same : s'.medium = s.medium) (batch : List Record) :
    s.Extends batch s' := by
  have unchanged : s'.log = s.log := log_congr same
  refine ⟨?_, by rw [same], by rw [unchanged], fun r member => Or.inl (unchanged ▸ member)⟩
  rw [unchanged]
  exact lists.congr same

/-- A batch that the store keeps as it is. -/
theorem Lists.extends_write (lists : s.Lists s.log) (kept : ∀ r ∈ batch, s.medium.Keeps r) :
    s.Extends batch (s.write batch).2 ∧ hashesIn batch ⊆ hashesIn (s.write batch).2.log := by
  have whole : Record.keptOf s.medium.durable batch = batch := by
    have unrefused : batch.filter (fun r => !r.refusedBy s.medium.durable) = batch :=
      List.filter_eq_self.mpr fun r member => by rw [(kept r member).1]; rfl
    rw [Record.keptOf, unrefused, List.map_congr_left fun r member => (kept r member).2, List.map_id']
  have written := lists.write batch
  rw [whole] at written
  rw [← written.log_eq] at written
  have log : (s.write batch).2.log = addRecords s.log batch := (whole ▸ lists.write batch).log_eq
  refine ⟨⟨written, durable_write s batch, ?_, fun r member => ?_⟩, fun hash member => ?_⟩
  · rw [log]
    exact prefix_addRecords
  · exact mem_addRecords (log ▸ member)
  · rw [log, hashesIn_addRecords]
    exact Or.inr member

theorem Reachable.lists {records : Set Record} (reached : s.Reachable records) : s.Lists s.log :=
  reached.filed.lists

end Store

/-- What a peer sends adds records of the message at most. -/
theorem Engine.Receives.extends {e e' : Engine} {peer : NodeId} {batch : List Record}
    (received : e.Receives peer batch e') (lists : e.store.Lists e.store.log)
    (kept : ∀ r ∈ batch, e.store.medium.Keeps r) : e.store.Extends batch e'.store := by
  cases received with
  | nothing stays => exact .of_same lists stays.medium batch
  | all _ stays =>
    obtain ⟨written, -⟩ := lists.extends_write kept
    have same : e'.store.medium = (e.store.write batch).2.medium := by
      rw [stays.medium, Engine.write_store]
    have log : e'.store.log = (e.store.write batch).2.log := Store.log_congr same
    refine ⟨?_, by rw [same, written.durable], log ▸ written.grown, log ▸ written.entered⟩
    rw [log]
    exact written.lists.congr same

theorem Medium.keeps_of_zero {medium : Medium} {record : Record} (zero : record.header.accuracy = .zero) :
    medium.Keeps record := by
  have plain : record.tabled = record := Record.tabled_eq_iff.mpr (by rw [zero]; decide)
  refine ⟨?_, ?_⟩
  · rw [Record.refusedBy, zero]
    exact Bool.and_false _
  · unfold Record.keptAs
    split
    · exact plain
    · rfl

/-- An appended record is in the log, or another of its hash was before. -/
theorem Replica.append_extends {r r' : Replica} {clock : Int} {value : List UInt8} {record : Record}
    (appended : r.append clock value = .ok (record, r')) (lists : r.engine.store.Lists r.engine.store.log) :
    r.engine.store.Extends [record] r'.engine.store ∧ record.hash ∈ hashesIn r'.engine.store.log ∧
      record.header.accuracy = .zero := by
  obtain ⟨registry, rfl, zero⟩ := append_writes appended
  have kept : ∀ m ∈ [record], r.engine.store.medium.Keeps m := fun m member =>
    List.mem_singleton.mp member ▸ Medium.keeps_of_zero zero
  have listed : (r.engine.withRegistry registry).store.Lists r.engine.store.log := lists.congr rfl
  obtain ⟨⟨after, durable, grown, entered⟩, present⟩ := listed.extends_write kept
  rw [Engine.write_store]
  exact ⟨⟨after, durable, grown, entered⟩, present (List.mem_singleton_self _), zero⟩

namespace Fleet

variable {ι : Type} {fleet : Fleet ι} {stored : Set Record} {place : ι}

/-- What holds of a fleet at every moment, given the records that were stored at the start. -/
structure Sound (fleet : Fleet ι) (stored : Set Record) : Prop where
  lists : ∀ place, (fleet.replica place).engine.store.Lists (fleet.log place)
  keeps : ∀ place, ∀ r ∈ fleet.known stored, (fleet.replica place).engine.store.medium.Keeps r
  drawn : ∀ place, ∀ r ∈ fleet.log place, r ∈ fleet.known stored
  carried : ∀ posting ∈ fleet.postings, ∀ r ∈ posting.message.records, r ∈ fleet.known stored
  own : ∀ place, ∀ r ∈ fleet.appended place, r.hash ∈ hashesIn (fleet.log place)

/-- A later state of a fleet. -/
structure Later (fleet fleet' : Fleet ι) (stored : Set Record) : Prop where
  sound : fleet'.Sound stored
  grown : ∀ place, fleet.log place <+: fleet'.log place
  known : fleet.known stored ⊆ fleet'.known stored

theorem Later.refl (sound : fleet.Sound stored) : fleet.Later fleet stored :=
  ⟨sound, fun _ => List.prefix_rfl, subset_rfl⟩

theorem Later.trans {fleet' fleet'' : Fleet ι} (first : fleet.Later fleet' stored)
    (second : fleet'.Later fleet'' stored) : fleet.Later fleet'' stored :=
  ⟨second.sound, fun place => (first.grown place).trans (second.grown place),
    first.known.trans second.known⟩

section Run

variable [DecidableEq ι]

/-- One replica acts: its log grows by known records, and so are the records that it sends. -/
theorem Sound.act {r : Replica} {batch : List Record} (postings : List Posting)
    {appended : ι → List Record} (sound : fleet.Sound stored)
    (before : ∀ place, fleet.appended place ⊆ appended place)
    (acted : (fleet.replica place).engine.store.Extends batch r.engine.store)
    (keeps : ∀ other, ∀ r ∈ known ⟨fleet.replica, [], appended⟩ stored,
      (fleet.replica other).engine.store.medium.Keeps r)
    (drawn : ∀ r ∈ batch, r ∈ known ⟨fleet.replica, [], appended⟩ stored)
    (sent : ∀ posting ∈ postings, ∀ m ∈ posting.message.records, m ∈ r.engine.store.log)
    (own : ∀ other, ∀ m ∈ appended other, m ∈ fleet.appended other ∨
      (other = place ∧ m.hash ∈ hashesIn r.engine.store.log)) :
    fleet.Later ⟨Function.update fleet.replica place r, fleet.postings ++ postings, appended⟩ stored := by
  have more : fleet.known stored ⊆ known ⟨fleet.replica, [], appended⟩ stored := by
    rintro m (old | ⟨other, old⟩)
    · exact Or.inl old
    · exact Or.inr ⟨other, before other old⟩
  have inLog : ∀ m ∈ r.engine.store.log, m ∈ known ⟨fleet.replica, [], appended⟩ stored := by
    intro m member
    rcases acted.entered m member with old | new
    · exact more (sound.drawn place m old)
    · exact drawn m new
  have grown : ∀ other, fleet.log other <+:
      log ⟨Function.update fleet.replica place r, fleet.postings ++ postings, appended⟩ other := by
    intro other
    by_cases same : other = place
    · subst same
      simpa [log] using acted.grown
    · simp [log, same]
  -- what is claimed of another place held before; at this one it follows from what the engine did
  refine ⟨⟨?_, ?_, ?_, ?_, ?_⟩, grown, more⟩
  · intro other
    by_cases same : other = place
    · subst same
      simpa [log] using acted.lists
    · simpa [log, same] using sound.lists other
  · intro other m member
    have kept := keeps other m member
    by_cases same : other = place
    · subst same
      simpa [Medium.Keeps, acted.durable] using kept
    · simpa [same] using kept
  · intro other m member
    by_cases same : other = place
    · subst same
      exact inLog m (by simpa [log] using member)
    · exact more (sound.drawn other m (by simpa [log, same] using member))
  · intro posting member m within
    rcases List.mem_append.mp member with old | new
    · exact more (sound.carried posting old m within)
    · exact inLog m (sent posting new m within)
  · intro other m member
    rcases own other m member with old | ⟨rfl, new⟩
    · obtain ⟨found, listed, same⟩ := mem_hashesIn.mp (sound.own other m old)
      exact mem_hashesIn.mpr ⟨found, (grown other).subset listed, same⟩
    · simpa [log] using new

theorem mem_appendedAt {appended : ι → List Record} {record r : Record} {other : ι} :
    r ∈ Function.update appended place (appended place ++ [record]) other ↔
      r ∈ appended other ∨ (other = place ∧ r = record) := by
  by_cases same : other = place
  · subst same
    simp
  · simp [same]

/-- What a replica appends is of its own making, and any store keeps it. -/
theorem Sound.append (sound : fleet.Sound stored) (place : ι) (clock : Int) (value : List UInt8) :
    fleet.Later (fleet.step (.append place clock value)) stored := by
  cases appended : (fleet.replica place).append clock value with
  | error error =>
    rw [Fleet.step, appended]
    exact .refl sound
  | ok pair =>
    obtain ⟨record, r⟩ := pair
    obtain ⟨acted, present, zero⟩ := Replica.append_extends appended (sound.lists place)
    have after := sound.act [] (fun _ _ member => mem_appendedAt.mpr (Or.inl member)) acted ?_ ?_
      (fun posting member => nomatch member) fun other m member =>
        (mem_appendedAt.mp member).imp_right fun ⟨own, same⟩ => ⟨own, same ▸ present⟩
    · rw [List.append_nil] at after
      rwa [Fleet.step, appended]
    · rintro other m (old | ⟨author, new⟩)
      · exact sound.keeps other m (Or.inl old)
      · rcases mem_appendedAt.mp new with old | ⟨-, rfl⟩
        · exact sound.keeps other m (Or.inr ⟨author, old⟩)
        · exact Medium.keeps_of_zero zero
    · intro m member
      obtain rfl := List.mem_singleton.mp member
      exact Or.inr ⟨place, mem_appendedAt.mpr (Or.inr ⟨rfl, rfl⟩)⟩

/-- What happens at one place keeps every store and every message within what is known. -/
theorem Sound.step (sound : fleet.Sound stored) (event : FleetEvent ι) :
    fleet.Later (fleet.step event) stored := by
  cases event with
  | heartbeat place now drawn network =>
    refine sound.act _ (fun _ => List.Subset.refl _)
      (.of_same (sound.lists place) Replica.same_heartbeat.medium []) sound.keeps
      (fun r member => nomatch member) (fun posting member m within => ?_) fun _ _ member => Or.inl member
    rw [Replica.records_heartbeatPostings posting member] at within
    cases within
  | append place clock value => exact sound.append place clock value
  | deliver place number now network =>
    unfold Fleet.step
    dsimp only
    cases found : fleet.postings[number]? with
    | none => exact .refl sound
    | some posting =>
      dsimp only
      split
      · have sent := sound.carried posting (List.mem_of_getElem? found)
        have acted := ((fleet.replica place).engine.process_receives now posting.sender
          posting.message).extends (sound.lists place) fun r member => sound.keeps place r (sent r member)
        rw [← Replica.engine_handle network] at acted
        refine sound.act _ (fun _ => List.Subset.refl _) acted sound.keeps sent
          (fun answer member m within => ?_) fun _ _ member => Or.inl member
        obtain ⟨hashes, read⟩ := Replica.records_handlePostings answer member
        exact acted.lists.read_subset read within
      · exact .refl sound

theorem Sound.run (sound : fleet.Sound stored) (events : List (FleetEvent ι)) :
    fleet.Later (fleet.run events) stored := by
  induction events generalizing fleet with
  | nil => exact .refl sound
  | cons event rest ih =>
    have first := sound.step event
    exact first.trans (ih first.sound)

end Run

end Fleet

/-- What a replica starts with: a configuration that passes the checks, and an engine with its settings over
the store. -/
theorem Replica.start_eq_ok {config : ReplicaConfig} {id : NodeId} {store : Store}
    {keys : Option Keypair} {r : Replica} (started : Replica.start config id store keys = .ok r) :
    config.validate = .ok () ∧ ∃ settings, config.settings = .ok settings ∧
      Engine.start config.backend store settings = .ok r.engine ∧ r.config = config := by
  unfold Replica.start at started
  obtain ⟨⟨⟩, valid, started⟩ := bind_eq_ok.mp started
  obtain ⟨settings, given, started⟩ := bind_eq_ok.mp started
  refine ⟨mapError_eq_ok.mp valid, settings, mapError_eq_ok.mp given, ?_⟩
  dsimp only at started
  split at started
  · split at started
    · cases started
    · obtain ⟨engine, built, same⟩ := bind_eq_ok.mp started
      obtain rfl := Except.ok.inj same
      exact ⟨mapError_eq_ok.mp built, rfl⟩
  · obtain ⟨engine, built, same⟩ := bind_eq_ok.mp started
    obtain rfl := Except.ok.inj same
    exact ⟨mapError_eq_ok.mp built, rfl⟩

/-- A replica starts over the store that it is given. -/
theorem Replica.store_of_start {config : ReplicaConfig} {id : NodeId} {store : Store}
    {keys : Option Keypair} {r : Replica} (started : Replica.start config id store keys = .ok r) :
    r.engine.store = store := by
  obtain ⟨-, settings, -, built, -⟩ := Replica.start_eq_ok started
  exact (Engine.start_fields built).1

/-- A network of replicas makes nothing up and loses nothing, whatever happens to the messages that
they send each other. Each log can be read, keeps what it had at the start and what its replica
appended, and only grows; every record in it, and in any message that was sent, was in some log at the
start or was appended by some replica. -/
theorem fleet_keeps_and_invents_nothing {ι : Type} [DecidableEq ι] (fleet : Fleet ι)
    (started : ∀ place, ∃ config id store keys, store.Reachable Set.univ ∧
      Replica.start config id store keys = .ok (fleet.replica place))
    (silent : fleet.postings = []) (idle : ∀ place, fleet.appended place = [])
    (kept : ∀ place, ∀ r ∈ fleet.stored, (fleet.replica place).engine.store.medium.Keeps r)
    (before after : List (FleetEvent ι))
    (consistent : ∀ r ∈ (fleet.run before).known fleet.stored,
      ∀ s ∈ (fleet.run before).known fleet.stored, r.hash = s.hash → r = s) :
    let now := fleet.run before
    (∀ place, (now.replica place).engine.store.readAll = .ok (now.log place) ∧
      fleet.log place ⊆ now.log place ∧ now.appended place ⊆ now.log place ∧
      now.log place <+: (fleet.run (before ++ after)).log place ∧
      ∀ r ∈ now.log place, r ∈ now.known fleet.stored) ∧
    ∀ posting ∈ now.postings, ∀ r ∈ posting.message.records, r ∈ now.known fleet.stored := by
  intro now
  have sound : fleet.Sound fleet.stored := by
    refine ⟨fun place => ?_, fun place r member => ?_, fun place r member => Or.inl ⟨place, member⟩,
      fun posting member => ?_, fun place r member => ?_⟩
    · obtain ⟨config, id, store, keys, reached, start⟩ := started place
      rw [Fleet.log, Replica.store_of_start start]
      exact reached.lists
    · rcases member with old | ⟨other, new⟩
      · exact kept place r old
      · rw [idle] at new
        cases new
    · rw [silent] at member
      cases member
    · rw [idle] at member
      cases member
  have first := sound.run before
  have second := first.sound.run after
  have whole : (fleet.run before).run after = fleet.run (before ++ after) := List.foldl_append.symm
  rw [whole] at second
  refine ⟨fun place => ⟨(first.sound.lists place).readAll_eq, (first.grown place).subset, ?_,
    second.grown place, first.sound.drawn place⟩, first.sound.carried⟩
  intro r member
  -- a write of a hash that is present is no write, so the log may hold another record under it
  obtain ⟨found, listed, same⟩ := mem_hashesIn.mp (first.sound.own place r member)
  have known := first.sound.drawn place found listed
  rwa [consistent r (Or.inr ⟨place, member⟩) found known same.symm]

/-- A replica appends its first record and contacts another one, which gets the first message twice; the
second answer is handed over before the first. -/
theorem fleet_keeps_and_invents_nothing_of_repeated :
    let keys : Keypair := ⟨.fill 32 3⟩
    let id (place : Bool) : NodeId := ⟨.fill 32 (if place then 1 else 2)⟩
    let replica (place : Bool) : Replica :=
      ⟨id place, .standard, some keys, .ofMode .cycle,
        ⟨Settings.standard, .mirror .empty 0, if place then .inMemory else .durable, ∅⟩⟩
    let fleet : Fleet Bool := ⟨replica, [], fun _ => []⟩
    let record := Replica.draft keys 0 [7] []
    let network := ((Network.empty.create (id true)).2.create (id false)).2
    let events : List (FleetEvent Bool) := [.append true 0 [7], .heartbeat true 0 0 network,
      .deliver false 0 1 network, .deliver false 0 2 network, .deliver true 2 3 network,
      .deliver true 1 4 network]
    let now := fleet.run events
    record ∈ now.log true ∧ (∀ r ∈ now.log false, r = record) ∧
      ∀ posting ∈ now.postings, ∀ r ∈ posting.message.records, r = record := by
  intro keys id replica fleet record network events now
  have started : ∀ place, ∃ config id store keys, store.Reachable Set.univ ∧
      Replica.start config id store keys = .ok (replica place) := by
    intro place
    cases place with
    | false => exact ⟨.standard, id false, .durable, some keys, .durable, rfl⟩
    | true => exact ⟨.standard, id true, .inMemory, some keys, .inMemory, rfl⟩
  have empty : ∀ place, fleet.log place = [] := by
    intro place
    cases place <;> rfl
  have delivered : ∀ (fleet : Fleet Bool) place number now network,
      (fleet.step (.deliver place number now network)).appended = fleet.appended := by
    intro fleet place number now network
    unfold Fleet.step
    dsimp only
    split
    · split <;> rfl
    · rfl
  have appended : now.appended = Function.update (fun _ => []) true [record] := by
    simp only [now, events, Fleet.run, List.foldl_cons, List.foldl_nil, delivered]
    rfl
  have known : ∀ r ∈ now.known fleet.stored, r = record := by
    rintro r (⟨place, member⟩ | ⟨place, member⟩)
    · rw [empty] at member
      cases member
    · rw [appended] at member
      cases place with
      | false => cases member
      | true => exact List.mem_singleton.mp member
  obtain ⟨each, postings⟩ := fleet_keeps_and_invents_nothing fleet started rfl (fun _ => rfl)
    (fun place r ⟨other, member⟩ => by rw [empty] at member; cases member) events []
    fun r listed s listed' _ => (known r listed).trans (known s listed').symm
  refine ⟨?_, fun r member => known r ((each false).2.2.2.2 r member),
    fun posting member r within => known r (postings posting member r within)⟩
  obtain ⟨-, -, own, -, -⟩ := each true
  apply own
  rw [appended, Function.update_self]
  exact List.mem_singleton_self record

end HashLog
