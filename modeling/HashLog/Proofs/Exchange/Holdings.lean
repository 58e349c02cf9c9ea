import HashLog.Proofs.Exchange.Switchboards
import HashLog.Proofs.Store.Cutoffs
/-!
What stays true of an engine and of the snapshots that its conversations hold. A snapshot comes from
an idle conversation, is registered to by its own peer only, and the store goes on below it all the
while; a property that these four steps keep holds after every operation (`Upholds.operateAll`). The
first one is that no cutoff is beyond the last commit, so what is written for one peer changes nothing
in what another one's snapshot shows (`Receives.base_view_eq`).
-/
namespace HashLog

namespace Engine

/-! ## Properties that operations keep -/

/-- A property of engines and one of the snapshots that they hold, neither of which depends on the
conversations: new snapshots have it, and it is kept by writes to the store, whether or not the records
are registered in the snapshot as well. -/
structure Sustained (P : Engine → Prop) (Q : Engine → Snapshot → Prop) : Prop where
  same : ∀ {e e' : Engine}, e.Same e' → P e → P e'
  carried : ∀ {e e' : Engine} {s : Snapshot}, e.Same e' → Q e s → Q e' s
  opened : ∀ {e e' : Engine} {s : Snapshot}, P e → e.snapshot = .ok (s, e') → Q e s
  write : ∀ {e : Engine} (batch : List Record), P e → P (e.write batch).2
  kept : ∀ {e : Engine} {s : Snapshot} (batch : List Record), P e → Q e s → Q (e.write batch).2 s
  registered : ∀ {e : Engine} {s : Snapshot} (batch : List Record), P e → Q e s →
    Q (e.write batch).2 (s.registerAll e.store batch)

/-- The engine has the one property and all snapshots that it holds have the other. -/
structure Upholds (P : Engine → Prop) (Q : Engine → Snapshot → Prop) (e : Engine) : Prop where
  engine : P e
  held : ∀ peer s, (e.conversation peer).snapshot? = some s → Q e s

section Upholds

variable {P : Engine → Prop} {Q : Engine → Snapshot → Prop} (rule : Sustained P Q) {e e' : Engine}
  {s s' : Snapshot} {c : Conversation} {now started : Nat} {peer : NodeId} {m : Message}
  {batch : List Record}
include rule

namespace Upholds

theorem withRegistry (upholds : e.Upholds P Q) (registry : SnapshotRegistry) :
    (e.withRegistry registry).Upholds P Q := by
  have same : e.Same (e.withRegistry registry) := ⟨rfl, rfl, rfl⟩
  exact ⟨rule.same same upholds.engine, fun peer s held => rule.carried same (upholds.held peer s held)⟩

theorem setConversation (upholds : e.Upholds P Q) (own : ∀ s, c.snapshot? = some s → Q e s) :
    (e.setConversation peer c).Upholds P Q := by
  have stays := stays_setConversation e peer c
  refine ⟨rule.same stays.toSame upholds.engine, fun other s held => rule.carried stays.toSame ?_⟩
  by_cases same : other = peer
  · subst same
    rw [conversation_setConversation] at held
    exact own s held
  · rw [conversation_setConversation_of_ne same] at held
    exact upholds.held other s held

theorem close (upholds : e.Upholds P Q) (idle : c.snapshot? = none) : (e.close peer c).Upholds P Q := by
  obtain ⟨registry, closed⟩ := e.close_eq peer c
  rw [closed]
  exact (upholds.withRegistry rule registry).setConversation rule fun s held => by rw [idle] at held; cases held

theorem expire (upholds : e.Upholds P Q) (now : Nat) (peer : NodeId) :
    (e.expire now peer).Upholds P Q := by
  unfold Engine.expire
  split
  · exact upholds.close rule rfl
  · exact upholds

/-- A new snapshot has the property, and opening it changes nothing else. -/
theorem snapshot (upholds : e.Upholds P Q) (taken : e.snapshot = .ok (s, e')) :
    e'.Upholds P Q ∧ Q e' s := by
  have own := rule.opened upholds.engine taken
  obtain ⟨registry, rfl⟩ := snapshot_eq_withRegistry taken
  have same : e.Same (e.withRegistry registry) := ⟨rfl, rfl, rfl⟩
  exact ⟨upholds.withRegistry rule registry, rule.carried same own⟩

theorem write (upholds : e.Upholds P Q) (batch : List Record) : (e.write batch).2.Upholds P Q := by
  refine ⟨rule.write batch upholds.engine, fun peer s held => rule.kept batch upholds.engine ?_⟩
  rw [conversation_write] at held
  exact upholds.held peer s held

theorem accept (upholds : e.Upholds P Q) (own : Q e s) (accepted : e.accept s batch = .ok (s', e')) :
    e'.Upholds P Q ∧ Q e' s' := by
  unfold Engine.accept at accepted
  split at accepted
  · obtain ⟨rfl, rfl⟩ := Prod.mk.inj (Except.ok.inj accepted)
    exact ⟨upholds, own⟩
  · split at accepted
    · cases accepted
    · obtain ⟨rfl, rfl⟩ := Prod.mk.inj (Except.ok.inj accepted)
      exact ⟨upholds.write rule batch, rule.registered batch upholds.engine own⟩

/-! ## Messages -/

private theorem onFirst (upholds : e.Upholds P Q) : (e.onFirst now peer m).2.Upholds P Q := by
  unfold Engine.onFirst
  split
  · exact upholds
  · rename_i s opened taken
    obtain ⟨after, own⟩ := upholds.snapshot rule taken
    split
    · obtain ⟨registry, released⟩ := opened.release_eq s
      rw [released]
      exact after.withRegistry rule registry
    · exact after.setConversation rule fun t held => Option.some.inj held ▸ own

private theorem onSecond (upholds : e.Upholds P Q) (own : Q e s) :
    (e.onSecond started s peer m).2.Upholds P Q := by
  unfold Engine.onSecond
  split
  · exact upholds
  · rename_i s' e' accepted
    obtain ⟨after, own'⟩ := upholds.accept rule own accepted
    dsimp only
    split
    · exact after
    · exact after.setConversation rule fun t held => Option.some.inj held ▸ own'

private theorem onThird (upholds : e.Upholds P Q) (own : Q e s) : (e.onThird s peer m).2.Upholds P Q := by
  unfold Engine.onThird
  split
  · exact upholds
  · rename_i s' e' accepted
    have after := (upholds.accept rule own accepted).1
    split
    · exact after
    · exact after.close rule rfl

private theorem onFourth (upholds : e.Upholds P Q) : (e.onFourth peer m).2.Upholds P Q := by
  unfold Engine.onFourth
  split
  · exact upholds
  · split
    · exact upholds.close rule rfl
    · exact (upholds.write rule m.records).close rule rfl

private theorem advance (upholds : e.Upholds P Q) : (e.advance now peer m).2.Upholds P Q := by
  have held := upholds.held peer
  unfold Engine.advance
  split
  · exact upholds
  · split
    · exact upholds.onFirst rule
    · exact upholds.onFirst rule
    · rename_i state _
      exact upholds.onSecond rule (held _ (by rw [state]; rfl))
    · rename_i state _
      exact upholds.onThird rule (held _ (by rw [state]; rfl))
    · exact upholds.onFourth rule
    · exact upholds

theorem process (upholds : e.Upholds P Q) (now : Nat) (peer : NodeId) (m : Message) :
    (e.process now peer m).2.Upholds P Q := by
  have advanced : ((e.expire now peer).advance now peer m).2.Upholds P Q :=
    (upholds.expire rule now peer).advance rule
  unfold Engine.process
  split
  · rename_i step after ran
    exact ran ▸ advanced
  · rename_i error after ran
    rw [ran] at advanced
    exact advanced.close rule rfl

theorem generate (upholds : e.Upholds P Q) (now : Nat) (peer : NodeId) :
    (e.generate now peer).2.Upholds P Q := by
  have expired := upholds.expire rule now peer
  unfold Engine.generate
  dsimp only
  split
  · have reset : ((e.expire now peer).setConversation peer .resting).Upholds P Q :=
      expired.setConversation rule fun _ held => nomatch held
    split
    · exact reset
    · rename_i s opened taken
      obtain ⟨after, own⟩ := reset.snapshot rule taken
      exact after.setConversation rule fun t held => Option.some.inj held ▸ own
  · exact expired

theorem operate (upholds : e.Upholds P Q) (op : Operation) : (e.operate op).2.Upholds P Q := by
  cases op with
  | generate now peer => exact upholds.generate rule now peer
  | process now peer m => exact upholds.process rule now peer m
  | write batch => exact upholds.write rule batch

theorem operateAll (upholds : e.Upholds P Q) (ops : List Operation) :
    (e.operateAll ops).2.Upholds P Q := by
  induction ops generalizing e with
  | nil => exact upholds
  | cons op rest ih => exact ih (upholds.operate rule op)

end Upholds

end Upholds

end Engine

/-! ## Cutoffs -/

theorem Store.Reachable.filed {records : Set Record} {s : Store} (reached : s.Reachable records) :
    s.Filed :=
  reached.of_write filed_inMemory filed_durable fun {s batch} _ _ filed => Filed.write (s := s) filed batch

/-- Nothing that is committed from now on shows in the frozen graph. -/
def Base.Within (store : Store) : Base → Prop
  | graph _ => True
  | Base.store picture _ => picture.cutoff ≤ store.medium.last

namespace Base.Within

variable {store after : Store} {base : Base}

theorem later (within : base.Within store) (last : store.medium.last ≤ after.medium.last) :
    base.Within after := by
  cases base with
  | graph g => trivial
  | store picture frontier => exact Nat.le_trans within last

/-- A frozen graph shows the same whatever is written. -/
theorem view_write (within : base.Within store) (filed : store.Filed) (batch : List Record) :
    base.view (store.write batch).2 = base.view store := by
  cases base with
  | graph g => rfl
  | store picture frontier => exact Store.view_write filed within batch

end Base.Within

/-- The store of a medium makes the view, not its registry. -/
theorem Base.view_congr {store store' : Store} (same : store'.medium = store.medium) (base : Base) :
    base.view store' = base.view store := by
  rcases store with ⟨medium, registry⟩
  rcases store' with ⟨medium', registry'⟩
  obtain rfl : medium' = medium := same
  cases base <;> rfl

theorem Snapshot.view_of_base {s : Snapshot} {store store' : Store}
    (same : s.base.view store' = s.base.view store) : s.view store' = s.view store := by
  rw [Snapshot.view, Snapshot.view, same]

namespace Engine

variable {e e' : Engine} {s : Snapshot} {peer : NodeId} {batch : List Record}

/-- An engine starts over the store that it is given, with no conversation. -/
theorem start_fields {kind : BackendKind} {store : Store} {settings : Settings}
    (started : Engine.start kind store settings = .ok e) :
    e.store = store ∧ e.settings = settings ∧ e.conversations = ∅ := by
  cases kind with
  | store =>
    obtain rfl := Except.ok.inj started
    exact ⟨rfl, rfl, rfl⟩
  | mirror =>
    obtain ⟨stored, -, rfl⟩ := map_eq_ok.mp started
    exact ⟨rfl, rfl, rfl⟩

/-- The store was filled by this library only, and no snapshot that is held is beyond its last
commit. -/
abbrev Kept (e : Engine) : Prop :=
  e.Upholds (fun e => e.store.Filed) fun e s => s.base.Within e.store

theorem sustained_kept : Sustained (fun e => e.store.Filed) fun e s => s.base.Within e.store where
  same same filed := filed.congr same.medium
  carried same within := within.later (Nat.le_of_eq (by rw [same.medium]))
  opened := by
    intro e e' s filed taken
    unfold Engine.snapshot at taken
    split at taken
    · obtain ⟨rfl, -⟩ := Prod.mk.inj (Except.ok.inj taken)
      trivial
    · obtain ⟨⟨picture, store⟩, created, same⟩ := map_eq_ok.mp taken
      obtain ⟨rfl, -⟩ := Prod.mk.inj same
      obtain ⟨picture', registry, created', last⟩ := filed.createSnapshot_ok
      obtain ⟨rfl, -⟩ := Prod.mk.inj (Except.ok.inj (created'.symm.trans created))
      exact last
  write batch filed := by
    rw [write_store]
    exact filed.write batch
  kept batch _ within := by
    rw [write_store]
    exact within.later (Store.last_le_write _ batch)
  registered batch _ within := by
    rw [write_store, Snapshot.base_registerAll]
    exact within.later (Store.last_le_write _ batch)

theorem Kept.start {kind : BackendKind} {store : Store} {settings : Settings} (filed : store.Filed)
    (started : Engine.start kind store settings = .ok e) : e.Kept := by
  obtain ⟨rfl, -, idle⟩ := start_fields started
  refine ⟨filed, fun peer s held => ?_⟩
  rw [conversation, idle, Std.TreeMap.getD_emptyc] at held
  cases held

/-- A snapshot can always be taken. -/
theorem snapshot_ok (filed : e.store.Filed) :
    ∃ s registry, e.snapshot = .ok (s, e.withRegistry registry) := by
  rcases e with ⟨settings, ⟨graph, version⟩ | _, store, conversations⟩
  · exact ⟨_, store.registry, rfl⟩
  · obtain ⟨picture, registry, created, -⟩ := filed.createSnapshot_ok
    exact ⟨_, registry, map_eq_ok.mpr ⟨_, created, rfl⟩⟩

/-- What is below a snapshot that an engine holds does not change with a message from another peer. -/
theorem Receives.base_view_eq {other : NodeId} (received : e.Receives peer batch e') (kept : e.Kept)
    (held : (e.conversation other).snapshot? = some s) : s.base.view e'.store = s.base.view e.store := by
  cases received with
  | nothing stays => exact Base.view_congr stays.medium _
  | all _ stays =>
    rw [Base.view_congr stays.medium, write_store]
    exact (kept.held other s held).view_write kept.engine batch

end Engine

end HashLog
