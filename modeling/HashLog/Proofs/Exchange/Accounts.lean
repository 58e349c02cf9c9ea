import HashLog.Proofs.Exchange.Reachable
import HashLog.Proofs.Exchange.Switchboards
/-!
The snapshots that conversations hold of their store. `Balanced` compares the calls on snapshots so far
with the snapshots that are open: each number is given out once and taken back at most once, and those
in between are open. A line of a switchboard keeps this whatever message arrives
(`Accounted.process`), so the snapshots that are open are those that slots hold.
-/
namespace HashLog

namespace SnapshotCall

/-- The numbers of the snapshots created, in order. -/
def createdIds (calls : List SnapshotCall) : List Nat :=
  calls.filterMap fun
    | .created id => some id
    | .destroyed _ => none

/-- The numbers of the snapshots destroyed, in order. -/
def destroyedIds (calls : List SnapshotCall) : List Nat :=
  calls.filterMap fun
    | .created _ => none
    | .destroyed id => some id

variable {calls : List SnapshotCall} {id : Nat}

@[simp] theorem createdIds_concat_created :
    createdIds (calls ++ [.created id]) = createdIds calls ++ [id] := by
  simp [createdIds]

@[simp] theorem createdIds_concat_destroyed :
    createdIds (calls ++ [.destroyed id]) = createdIds calls := by
  simp [createdIds]

@[simp] theorem destroyedIds_concat_created :
    destroyedIds (calls ++ [.created id]) = destroyedIds calls := by
  simp [destroyedIds]

@[simp] theorem destroyedIds_concat_destroyed :
    destroyedIds (calls ++ [.destroyed id]) = destroyedIds calls ++ [id] := by
  simp [destroyedIds]

end SnapshotCall

open SnapshotCall

/-! ## The books of a store -/

/-- The open snapshots of a store are those opened by others and the live ones, and a live one was
created by these calls and not destroyed. -/
structure Balanced (others live : Set Nat) (registry : SnapshotRegistry) (calls : List SnapshotCall) :
    Prop where
  opened : ∀ id, id ∈ registry.opened ↔ id ∈ others ∨ id ∈ live
  numbered : ∀ id, id ∈ others ∨ id ∈ createdIds calls → id ≤ registry.last
  fresh : (createdIds calls).Nodup
  apart : ∀ id ∈ createdIds calls, id ∉ others
  once : (destroyedIds calls).Nodup
  accounted : ∀ id, id ∈ createdIds calls ↔ id ∈ destroyedIds calls ∨ id ∈ live
  kept : ∀ id ∈ live, id ∉ destroyedIds calls

variable {others live rest : Set Nat} {registry : SnapshotRegistry} {calls : List SnapshotCall} {id : Nat}

theorem balanced_start (numbered : ∀ id ∈ registry.opened, id ≤ registry.last) :
    Balanced {id | id ∈ registry.opened} ∅ registry [] where
  opened id := by simp
  numbered id listed := numbered id (by simpa [createdIds] using listed)
  fresh := List.nodup_nil
  apart id listed := nomatch listed
  once := List.nodup_nil
  accounted id := by simp [createdIds, destroyedIds]
  kept id listed := nomatch listed

/-- The next snapshot has a number of its own. -/
theorem Balanced.create (balanced : Balanced others live registry calls) :
    registry.create.1 ∉ live ∧ Balanced others (insert registry.create.1 live) registry.create.2
      (calls ++ [.created registry.create.1]) := by
  obtain ⟨opened, numbered, fresh, apart, once, accounted, kept⟩ := balanced
  have unused : ∀ id, id ∈ others ∨ id ∈ createdIds calls → id ≠ registry.last + 1 := by
    intro id listed same
    have := numbered id listed
    omega
  have uncreated : registry.last + 1 ∉ createdIds calls := fun listed => unused _ (.inr listed) rfl
  change registry.last + 1 ∉ live ∧ Balanced others (insert (registry.last + 1) live)
    ⟨registry.opened.insert (registry.last + 1), registry.last + 1⟩
    (calls ++ [.created (registry.last + 1)])
  refine ⟨fun listed => uncreated ((accounted _).mpr (.inr listed)), ?_⟩
  constructor
  case opened =>
    intro id
    rw [Std.TreeSet.mem_insert, Std.LawfulEqCmp.compare_eq_iff_eq, opened, Set.mem_insert_iff, eq_comm]
    tauto
  case numbered =>
    intro id listed
    rw [createdIds_concat_created, List.mem_append, List.mem_singleton] at listed
    rcases listed with other | old | rfl
    · exact Nat.le_succ_of_le (numbered id (.inl other))
    · exact Nat.le_succ_of_le (numbered id (.inr old))
    · exact Nat.le_refl _
  case fresh =>
    rw [createdIds_concat_created]
    exact fresh.append (List.nodup_singleton _) (by simpa using uncreated)
  case apart =>
    intro id listed
    rw [createdIds_concat_created, List.mem_append, List.mem_singleton] at listed
    rcases listed with old | rfl
    · exact apart id old
    · exact fun other => unused _ (.inl other) rfl
  case once => rwa [destroyedIds_concat_created]
  case accounted =>
    intro id
    rw [createdIds_concat_created, destroyedIds_concat_created, List.mem_append, List.mem_singleton,
      accounted, Set.mem_insert_iff]
    tauto
  case kept =>
    intro id listed
    rw [destroyedIds_concat_created]
    rcases listed with rfl | old
    · exact fun gone => uncreated ((accounted _).mpr (.inl gone))
    · exact kept id old

/-- A live snapshot is destroyed. -/
theorem Balanced.destroy (balanced : Balanced others (insert id live) registry calls)
    (absent : id ∉ live) : Balanced others live (registry.destroy id) (calls ++ [.destroyed id]) := by
  obtain ⟨opened, numbered, fresh, apart, once, accounted, kept⟩ := balanced
  have own : id ∈ createdIds calls := (accounted id).mpr (.inr (Set.mem_insert _ _))
  constructor
  case opened =>
    intro other
    change other ∈ registry.opened.erase id ↔ _
    rw [Std.TreeSet.mem_erase, ne_eq, Std.LawfulEqCmp.compare_eq_iff_eq, opened, Set.mem_insert_iff]
    constructor
    · rintro ⟨differs, foreign | same | listed⟩
      · exact .inl foreign
      · exact absurd same.symm differs
      · exact .inr listed
    · rintro (foreign | listed)
      · exact ⟨fun same => apart id own (same ▸ foreign), .inl foreign⟩
      · exact ⟨fun same => absent (same ▸ listed), .inr (.inr listed)⟩
  case numbered => rwa [createdIds_concat_destroyed]
  case fresh => rwa [createdIds_concat_destroyed]
  case apart => rwa [createdIds_concat_destroyed]
  case once =>
    rw [destroyedIds_concat_destroyed]
    exact once.append (List.nodup_singleton _) (by simpa using kept id (Set.mem_insert _ _))
  case accounted =>
    intro other
    rw [createdIds_concat_destroyed, destroyedIds_concat_destroyed, accounted, List.mem_append,
      List.mem_singleton, Set.mem_insert_iff]
    tauto
  case kept =>
    intro other listed
    rw [destroyedIds_concat_destroyed, List.mem_append, List.mem_singleton]
    rintro (gone | rfl)
    · exact kept other (Set.mem_insert_of_mem _ listed) gone
    · exact absent listed

/-! ## The books of a line -/

theorem Store.registry_write (s : Store) (batch : List Record) :
    (s.write batch).2.registry = s.registry := by
  rw [write_snd]
  induction batch generalizing s with
  | nil => rfl
  | cons record rest ih =>
    have inserted : (s.insert record).2.registry = s.registry := by
      unfold insert
      split <;> rfl
    exact (ih _).trans inserted

/-- Writing to an engine on its store opens and closes no snapshot. -/
private theorem Engine.write_plain {e : Engine} (plain : e.backend = .store) (batch : List Record) :
    (e.write batch).2.backend = e.backend ∧ (e.write batch).2.store.registry = e.store.registry := by
  rw [write_store, Store.registry_write, write, plain]
  exact ⟨rfl, rfl⟩

/-- The number of the snapshot that a slot holds, if it holds one and the store keeps it. -/
def Slot.held? (slot : Slot) : Option (Option Nat) := slot.snapshot?.map Snapshot.id?

/-- A line over a store whose books balance: of the live snapshots the slot holds its own, if it has
one, and others hold the rest. -/
structure Line.Accounted (others rest : Set Nat) (own : Option Nat) (l : Line) : Prop where
  plain : l.engine.backend = .store
  held : l.slot.held? = own.map some
  apart : ∀ id ∈ own, id ∉ rest
  balanced : Balanced others (rest ∪ {id | id ∈ own}) l.engine.store.registry l.calls

namespace Line

variable {l l' : Line} {own : Option Nat} {s : Snapshot} {now : Nat} {m : Message}

/-- What a line does to its engine without opening or closing a snapshot. -/
private theorem Accounted.congr (accounted : l.Accounted others rest own)
    (plain : l'.engine.backend = l.engine.backend)
    (registry : l'.engine.store.registry = l.engine.store.registry) (calls : l'.calls = l.calls)
    (held : l'.slot.held? = l.slot.held?) : l'.Accounted others rest own :=
  ⟨plain.trans accounted.plain, held.trans accounted.held, accounted.apart,
    registry ▸ calls ▸ accounted.balanced⟩

/-- A line that holds no snapshot. -/
private theorem accounted_none (plain : l.engine.backend = .store) (held : l.slot.snapshot? = none)
    (balanced : Balanced others rest l.engine.store.registry l.calls) : l.Accounted others rest none :=
  ⟨plain, by rw [Slot.held?, held]; rfl, (fun _ listed => nomatch listed), by simpa using balanced⟩

private theorem Accounted.snapshot?_none (accounted : l.Accounted others rest none) :
    l.slot.snapshot? = none := by
  have held := accounted.held
  rwa [Slot.held?, Option.map_none, Option.map_eq_none_iff] at held

private theorem Accounted.balanced_none (accounted : l.Accounted others rest none) :
    Balanced others rest l.engine.store.registry l.calls := by
  simpa using accounted.balanced

private theorem union_some (rest : Set Nat) (id : Nat) :
    rest ∪ {other | other ∈ some id} = insert id rest := by
  ext other
  simp [eq_comm]

/-- Giving a live snapshot back. -/
private theorem drop_balances (balanced : Balanced others (insert id rest) l.engine.store.registry l.calls)
    (numbered : s.id? = some id) (absent : id ∉ rest) : (l.drop s).engine.backend = l.engine.backend ∧
      Balanced others rest (l.drop s).engine.store.registry (l.drop s).calls := by
  have released : (l.engine.release s).backend = l.engine.backend ∧
      (l.engine.release s).store.registry = l.engine.store.registry.destroy id := by
    unfold Snapshot.id? at numbered
    unfold Engine.release
    cases base : s.base with
    | graph g => rw [base] at numbered; cases numbered
    | store picture frontier =>
      rw [base] at numbered
      obtain rfl := Option.some.inj numbered
      exact ⟨rfl, rfl⟩
  have closed := balanced.destroy absent
  rw [← released.2] at closed
  exact ⟨released.1, by simpa [Line.drop, numbered] using closed⟩

/-- A live snapshot that no slot holds is given back. -/
private theorem Accounted.drop (accounted : l.Accounted others (insert id rest) none)
    (numbered : s.id? = some id) (absent : id ∉ rest) : (l.drop s).Accounted others rest none := by
  obtain ⟨backend, closed⟩ := drop_balances accounted.balanced_none numbered absent
  exact accounted_none (backend.trans accounted.plain) accounted.snapshot?_none closed

/-- Giving the snapshot of the slot back, if there is one. -/
private theorem Accounted.dropHeld (accounted : l.Accounted others rest own) :
    l.dropHeld.engine.backend = .store ∧
      Balanced others rest l.dropHeld.engine.store.registry l.dropHeld.calls := by
  unfold Line.dropHeld
  cases own with
  | none =>
    rw [accounted.snapshot?_none]
    exact ⟨accounted.plain, accounted.balanced_none⟩
  | some id =>
    obtain ⟨s, kept, numbered⟩ := Option.map_eq_some_iff.mp accounted.held
    rw [kept]
    obtain ⟨backend, closed⟩ := drop_balances (union_some rest id ▸ accounted.balanced) numbered
      (accounted.apart id rfl)
    exact ⟨backend.trans accounted.plain, closed⟩

theorem Accounted.reset (accounted : l.Accounted others rest own) :
    l.reset.Accounted others rest none :=
  accounted_none accounted.dropHeld.1 rfl accounted.dropHeld.2

theorem Accounted.expire (accounted : l.Accounted others rest own) (now : Nat) :
    ∃ own, (l.expire now).Accounted others rest own := by
  unfold Line.expire
  split
  · exact ⟨none, accounted.reset⟩
  · exact ⟨own, accounted⟩

/-- A snapshot just taken is live and in no slot. -/
private theorem Accounted.openSnapshot (accounted : l.Accounted others rest none)
    (opened : l.openSnapshot = .ok (s, l')) : ∃ id, s.id? = some id ∧ id ∉ rest ∧
      l'.Accounted others (insert id rest) none := by
  unfold Line.openSnapshot Engine.snapshot at opened
  rw [accounted.plain] at opened
  obtain ⟨⟨taken, engine⟩, snapshot, same⟩ := map_eq_ok.mp opened
  obtain ⟨rfl, rfl⟩ := Prod.mk.inj same
  obtain ⟨⟨picture, store⟩, created, same⟩ := map_eq_ok.mp snapshot
  obtain ⟨rfl, rfl⟩ := Prod.mk.inj same
  obtain ⟨⟨cutoff, begins, ends⟩, -, same⟩ := map_eq_ok.mp created
  obtain ⟨rfl, rfl⟩ := Prod.mk.inj same
  obtain ⟨absent, balanced⟩ := accounted.balanced_none.create
  exact ⟨_, rfl, absent, accounted_none rfl accounted.snapshot?_none balanced⟩

/-- A live snapshot goes into an empty slot. -/
private theorem Accounted.begin (accounted : l.Accounted others (insert id rest) none)
    (numbered : s.id? = some id) (absent : id ∉ rest) (state : PeerState) (now : Nat) :
    (l.begin state now s).Accounted others rest (some id) := by
  have kept : l.dropHeld = l := by rw [Line.dropHeld, accounted.snapshot?_none]
  unfold Line.begin
  rw [kept]
  refine ⟨accounted.plain, congrArg some numbered, ?_, ?_⟩
  · rintro _ ⟨⟩
    exact absent
  · rw [union_some]
    exact accounted.balanced_none

/-! ## The books of a conversation -/

private theorem registry_accept {e e' : Engine} {s' : Snapshot} {batch : List Record}
    (plain : e.backend = .store) (accepted : e.accept s batch = .ok (s', e')) :
    e'.backend = e.backend ∧ e'.store.registry = e.store.registry ∧ s'.id? = s.id? := by
  have base : s'.id? = s.id? := by
    rw [Snapshot.id?, Snapshot.id?, (Engine.accept_keeps accepted).1]
  unfold Engine.accept at accepted
  split at accepted
  · obtain ⟨-, rfl⟩ := Prod.mk.inj (Except.ok.inj accepted)
    exact ⟨rfl, rfl, base⟩
  · split at accepted
    · cases accepted
    · obtain ⟨-, rfl⟩ := Prod.mk.inj (Except.ok.inj accepted)
      exact ⟨(Engine.write_plain plain batch).1, (Engine.write_plain plain batch).2, base⟩

private theorem accounted_onFirst (accounted : l.Accounted others rest own) :
    ∃ own, (l.onFirst now m).2.Accounted others rest own := by
  unfold Line.onFirst
  split
  · exact ⟨none, accounted.reset⟩
  · rename_i s l' opened
    obtain ⟨id, numbered, absent, live⟩ := accounted.reset.openSnapshot opened
    split
    · exact ⟨none, live.drop numbered absent⟩
    · exact ⟨some id, live.begin numbered absent .firstReceived now⟩

private theorem accounted_onSecond (accounted : l.Accounted others rest own) :
    (l.onSecond m).2.Accounted others rest own := by
  unfold Line.onSecond
  split
  · exact accounted
  · rename_i s held
    split
    · exact accounted
    · rename_i s' engine accepted
      obtain ⟨backend, registry, same⟩ := registry_accept accounted.plain accepted
      have kept : Slot.held? l.slot = some s'.id? := by rw [Slot.held?, held, same]; rfl
      dsimp only
      split
      · exact accounted.congr backend registry rfl kept.symm
      · exact accounted.congr backend registry rfl kept.symm

private theorem accounted_onThird (accounted : l.Accounted others rest own) :
    ∃ own, (l.onThird m).2.Accounted others rest own := by
  unfold Line.onThird
  split
  · exact ⟨own, accounted⟩
  · rename_i s held
    split
    · exact ⟨own, accounted⟩
    · rename_i s' engine accepted
      obtain ⟨backend, registry, same⟩ := registry_accept accounted.plain accepted
      have kept : Slot.held? l.slot = some s'.id? := by rw [Slot.held?, held, same]; rfl
      have after : Accounted others rest own
          { l with engine, slot := { l.slot with snapshot? := some s' } } :=
        accounted.congr backend registry rfl kept.symm
      dsimp only
      split
      · exact ⟨own, after⟩
      · exact ⟨none, after.reset.congr rfl rfl rfl rfl⟩

private theorem accounted_onFourth (accounted : l.Accounted others rest own) :
    ∃ own, (l.onFourth m).2.Accounted others rest own := by
  unfold Line.onFourth
  split
  · exact ⟨own, accounted⟩
  · have written : Accounted others rest own
        { l with engine := if m.records.isEmpty then l.engine else (l.engine.write m.records).2 } := by
      split
      · exact accounted
      · obtain ⟨backend, registry⟩ := Engine.write_plain accounted.plain m.records
        exact accounted.congr backend registry rfl rfl
    exact ⟨none, written.reset⟩

private theorem accounted_advance (accounted : l.Accounted others rest own) :
    ∃ own, (l.advance now m).2.Accounted others rest own := by
  unfold Line.advance
  split
  · exact ⟨own, accounted⟩
  · split
    · exact accounted_onFirst accounted
    · exact accounted_onFirst accounted
    · exact ⟨own, accounted_onSecond accounted⟩
    · exact accounted_onThird accounted
    · exact accounted_onFourth accounted
    · exact ⟨own, accounted⟩

/-- The books of a line balance after every message, be it answered or refused. -/
theorem Accounted.process (accounted : l.Accounted others rest own) (now : Nat) (m : Message) :
    ∃ own, (l.process now m).2.Accounted others rest own := by
  obtain ⟨_, expired⟩ := accounted.expire now
  obtain ⟨_, advanced⟩ : ∃ own, ((l.expire now).advance now m).2.Accounted others rest own :=
    accounted_advance expired
  unfold Line.process
  split
  · rename_i step after ran
    exact ⟨_, ran ▸ advanced⟩
  · rename_i error after ran
    rw [ran] at advanced
    exact ⟨none, advanced.reset⟩

theorem Accounted.generate (accounted : l.Accounted others rest own) (now : Nat) :
    ∃ own, (l.generate now).2.Accounted others rest own := by
  obtain ⟨own, expired⟩ := accounted.expire now
  unfold Line.generate
  dsimp only
  split
  · split
    · exact ⟨none, expired.reset⟩
    · rename_i s l' opened
      obtain ⟨id, numbered, absent, live⟩ := expired.reset.openSnapshot opened
      exact ⟨some id, live.begin numbered absent .firstSent now⟩
  · exact ⟨own, expired⟩

end Line

/-! ## The books of a switchboard -/

/-- A switchboard over a store whose books balance: the live snapshots are those in the slots, each in
one of them. -/
structure Switchboard.Accounted (others : Set Nat) (own : NodeId → Option Nat) (w : Switchboard) :
    Prop where
  plain : w.engine.backend = .store
  held : ∀ peer, (w.slots peer).held? = (own peer).map some
  distinct : ∀ peer other id, own peer = some id → own other = some id → peer = other
  balanced : Balanced others {id | ∃ peer, own peer = some id} w.engine.store.registry w.calls

namespace Switchboard

variable {w : Switchboard} {own : NodeId → Option Nat} {peer : NodeId} {l : Line}

/-- The snapshots that the slots of other peers hold. -/
private def elsewhere (own : NodeId → Option Nat) (peer : NodeId) : Set Nat :=
  {id | ∃ other, other ≠ peer ∧ own other = some id}

private theorem elsewhere_union (own : NodeId → Option Nat) (peer : NodeId) :
    elsewhere own peer ∪ {id | id ∈ own peer} = {id | ∃ peer, own peer = some id} := by
  ext id
  constructor
  · rintro (⟨other, -, named⟩ | named)
    · exact ⟨other, named⟩
    · exact ⟨peer, named⟩
  · rintro ⟨other, named⟩
    by_cases same : other = peer
    · exact .inr (same ▸ named)
    · exact .inl ⟨other, same, named⟩

private theorem Accounted.line (accounted : w.Accounted others own) (peer : NodeId) :
    (w.line peer).Accounted others (elsewhere own peer) (own peer) := by
  refine ⟨accounted.plain, accounted.held peer, ?_, ?_⟩
  · rintro id named ⟨other, differs, shared⟩
    exact differs (accounted.distinct other peer id shared named)
  · rw [elsewhere_union]
    exact accounted.balanced

private theorem Accounted.put (accounted : w.Accounted others own) {next : Option Nat}
    (after : l.Accounted others (elsewhere own peer) next) :
    (w.put peer l).Accounted others (Function.update own peer next) := by
  have same : elsewhere (Function.update own peer next) peer = elsewhere own peer := by
    ext id
    constructor
    · rintro ⟨other, differs, named⟩
      exact ⟨other, differs, by rwa [Function.update_of_ne differs] at named⟩
    · rintro ⟨other, differs, named⟩
      exact ⟨other, differs, by rwa [Function.update_of_ne differs]⟩
  refine ⟨after.plain, ?_, ?_, ?_⟩
  · intro other
    by_cases own : other = peer
    · subst own
      simp only [Switchboard.put, Function.update_self]
      exact after.held
    · simp only [Switchboard.put, Function.update_of_ne own]
      exact accounted.held other
  · -- a number of this slot is in no other, and the others are as before
    have single : ∀ other id, other ≠ peer → own other = some id → next ≠ some id :=
      fun other id differs named own => after.apart id own ⟨other, differs, named⟩
    intro first second id
    by_cases left : first = peer <;> by_cases right : second = peer
    · exact fun _ _ => left.trans right.symm
    · subst left
      rw [Function.update_self, Function.update_of_ne right]
      exact fun named shared => absurd named (single second id right shared)
    · subst right
      rw [Function.update_self, Function.update_of_ne left]
      exact fun shared named => absurd named (single first id left shared)
    · rw [Function.update_of_ne left, Function.update_of_ne right]
      exact accounted.distinct first second id
  · rw [← elsewhere_union _ peer, same, Function.update_self]
    exact after.balanced

/-- The books balance after every operation. -/
theorem Accounted.operate (accounted : w.Accounted others own) (op : Operation) :
    ∃ own, (w.operate op).2.Accounted others own := by
  cases op with
  | generate now peer => exact ((accounted.line peer).generate now).imp' _ fun _ => accounted.put
  | process now peer m => exact ((accounted.line peer).process now m).imp' _ fun _ => accounted.put
  | write batch =>
    obtain ⟨plain, held, distinct, balanced⟩ := accounted
    obtain ⟨backend, registry⟩ := Engine.write_plain plain batch
    exact ⟨own, backend.trans plain, held, distinct, registry ▸ balanced⟩

theorem Accounted.operateAll (accounted : w.Accounted others own) (ops : List Operation) :
    ∃ own, (w.operateAll ops).2.Accounted others own := by
  induction ops generalizing w own with
  | nil => exact ⟨own, accounted⟩
  | cons op rest ih =>
    obtain ⟨_, after⟩ := accounted.operate op
    exact ih after

/-- Nothing is held at the start, and what is open was opened by others. -/
theorem accounted_start {e : Engine} (plain : e.backend = .store)
    (numbered : ∀ id ∈ e.store.registry.opened, id ≤ e.store.registry.last) :
    (start e).Accounted {id | id ∈ e.store.registry.opened} fun _ => none := by
  refine ⟨plain, fun _ => rfl, fun _ _ _ named => (nomatch named), ?_⟩
  have empty : {id : Nat | ∃ _ : NodeId, (none : Option Nat) = some id} = ∅ := by
    ext id
    simp
  rw [empty]
  exact balanced_start numbered

end Switchboard

end HashLog
