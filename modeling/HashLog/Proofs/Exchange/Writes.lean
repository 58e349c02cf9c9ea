import HashLog.Proofs.Exchange.Backends
/-!
What a message changes and what it leaves. Starting, expiring and ending a conversation leaves the
records of an engine and its other conversations as they are (`Stays`). The records of a message are
written all together after the checks or not at all, in whatever state it arrives
(`process_receives`).
-/
namespace HashLog

/-- Checks that are on let only valid records pass. -/
theorem Settings.validate_of_checkRecords {settings : Settings} {batch : List Record}
    (verify : settings.verify = true) (checked : settings.checkRecords batch = .ok ()) :
    ∀ r ∈ batch, r.validate settings.writer = .ok () := by
  rw [Settings.checkRecords, if_pos verify] at checked
  induction batch with
  | nil => exact fun r member => nomatch member
  | cons first rest ih =>
    change (do first.validate settings.writer; rest.forM (Record.validate settings.writer)) = _ at checked
    cases valid : first.validate settings.writer with
    | error error => rw [valid] at checked; cases checked
    | ok passed =>
      rw [valid] at checked
      exact List.forall_mem_cons.mpr ⟨valid, ih checked⟩

namespace Engine

variable {e e' : Engine} {s : Snapshot} {peer : NodeId} {now started : Nat} {batch : List Record}
  {m : Message}

/-! ## Engines over the same records -/

/-- Engines over the same records, whatever their conversations. -/
structure Same (e e' : Engine) : Prop where
  backend : e'.backend = e.backend
  medium : e'.store.medium = e.store.medium
  settings : e'.settings = e.settings

theorem Same.refl (e : Engine) : e.Same e := ⟨rfl, rfl, rfl⟩

theorem Same.trans {e'' : Engine} (first : e.Same e') (second : e'.Same e'') : e.Same e'' :=
  ⟨second.backend.trans first.backend, second.medium.trans first.medium,
    second.settings.trans first.settings⟩

theorem Same.holds {commits : Commits} (same : e.Same e') (holds : e.Holds commits) : e'.Holds commits := by
  refine ⟨?_, fun graph version mirror => holds.mirror graph version (same.backend ▸ mirror)⟩
  rw [Store.Holds, same.medium]
  exact holds.store

theorem Same.write (same : e.Same e') : (e.write batch).2.Same (e'.write batch).2 := by
  refine ⟨?_, ?_, ?_⟩
  · unfold Engine.write
    rw [same.backend]
    cases e.backend <;> rfl
  · rw [write_store, write_store]
    exact (Store.write_congr same.medium batch).2
  · rw [write_settings, write_settings, same.settings]

/-! ## Engines but for one conversation -/

/-- Engines over the same records that differ in the conversation with one peer at most. -/
structure Stays (e : Engine) (peer : NodeId) (e' : Engine) : Prop extends e.Same e' where
  spares : ∀ other, other ≠ peer → e'.conversation other = e.conversation other

theorem Stays.refl (e : Engine) (peer : NodeId) : e.Stays peer e := ⟨.refl e, fun _ _ => rfl⟩

theorem Stays.trans {e'' : Engine} (first : e.Stays peer e') (second : e'.Stays peer e'') :
    e.Stays peer e'' :=
  ⟨first.toSame.trans second.toSame,
    fun other differs => (second.spares other differs).trans (first.spares other differs)⟩

theorem Stays.write (stays : e.Stays peer e') : (e.write batch).2.Stays peer (e'.write batch).2 := by
  refine ⟨stays.toSame.write, fun other differs => ?_⟩
  rw [conversation_write, conversation_write]
  exact stays.spares other differs

theorem stays_withRegistry (e : Engine) (registry : SnapshotRegistry) (peer : NodeId) :
    e.Stays peer (e.withRegistry registry) := ⟨⟨rfl, rfl, rfl⟩, fun _ _ => rfl⟩

theorem stays_setConversation (e : Engine) (peer : NodeId) (c : Conversation) :
    e.Stays peer (e.setConversation peer c) :=
  ⟨⟨rfl, rfl, rfl⟩, fun _ differs => conversation_setConversation_of_ne differs⟩

theorem stays_release (e : Engine) (s : Snapshot) (peer : NodeId) : e.Stays peer (e.release s) := by
  obtain ⟨registry, released⟩ := e.release_eq s
  rw [released]
  exact stays_withRegistry e registry peer

theorem stays_close (e : Engine) (peer : NodeId) (c : Conversation) : e.Stays peer (e.close peer c) := by
  obtain ⟨registry, closed⟩ := e.close_eq peer c
  rw [closed]
  exact (stays_withRegistry e registry peer).trans (stays_setConversation _ peer c)

theorem stays_expire (e : Engine) (now : Nat) (peer : NodeId) : e.Stays peer (e.expire now peer) := by
  unfold expire
  split
  · exact stays_close e peer .resting
  · exact .refl e peer

/-- Taking a snapshot changes nothing but the registry. -/
theorem snapshot_eq_withRegistry (taken : e.snapshot = .ok (s, e')) :
    ∃ registry, e' = e.withRegistry registry := by
  unfold snapshot at taken
  split at taken
  · obtain ⟨-, rfl⟩ := Prod.mk.inj (Except.ok.inj taken)
    exact ⟨e.store.registry, rfl⟩
  · obtain ⟨⟨picture, store⟩, created, same⟩ := map_eq_ok.mp taken
    obtain ⟨-, rfl⟩ := Prod.mk.inj same
    obtain ⟨⟨cutoff, begins, ends⟩, -, same⟩ := map_eq_ok.mp created
    obtain ⟨-, rfl⟩ := Prod.mk.inj same
    exact ⟨_, rfl⟩

theorem stays_snapshot (taken : e.snapshot = .ok (s, e')) (peer : NodeId) : e.Stays peer e' := by
  obtain ⟨registry, rfl⟩ := snapshot_eq_withRegistry taken
  exact stays_withRegistry e registry peer

/-- Looking the ends up changes nothing but the registry. -/
theorem logicalEnds_eq_withRegistry {ends : List Hash} (listed : e.logicalEnds = .ok (ends, e')) :
    ∃ registry, e' = e.withRegistry registry := by
  unfold logicalEnds at listed
  split at listed
  · obtain ⟨-, rfl⟩ := Prod.mk.inj (Except.ok.inj listed)
    exact ⟨e.store.registry, rfl⟩
  · obtain ⟨⟨s, opened⟩, taken, same⟩ := map_eq_ok.mp listed
    obtain ⟨-, rfl⟩ := Prod.mk.inj same
    obtain ⟨registry, rfl⟩ := snapshot_eq_withRegistry taken
    obtain ⟨closed, released⟩ := (e.withRegistry registry).release_eq s
    exact ⟨closed, released⟩

/-- Starting a conversation writes nothing. -/
theorem stays_generate (e : Engine) (now : Nat) (peer : NodeId) :
    e.Stays peer (e.generate now peer).2 := by
  have expired := stays_expire e now peer
  unfold generate
  dsimp only
  split
  · have reset := expired.trans (stays_setConversation _ peer .resting)
    split
    · exact reset
    · rename_i s opened taken
      exact (reset.trans (stays_snapshot taken peer)).trans (stays_setConversation _ _ _)
  · exact expired

/-! ## The records of a message -/

/-- An engine that was handed records by a peer has written none of them, or all after the checks. -/
inductive Receives (e : Engine) (peer : NodeId) (batch : List Record) (e' : Engine) : Prop where
  | nothing (stays : e.Stays peer e')
  | all (checked : e.settings.checkRecords batch = .ok ()) (stays : (e.write batch).2.Stays peer e')

theorem Receives.trans {e'' : Engine} (received : e.Receives peer batch e')
    (stays : e'.Stays peer e'') : e.Receives peer batch e'' := by
  cases received with
  | nothing before => exact .nothing (before.trans stays)
  | all checked before => exact .all checked (before.trans stays)

theorem Stays.receives {e'' : Engine} (stays : e.Stays peer e')
    (received : e'.Receives peer batch e'') : e.Receives peer batch e'' := by
  cases received with
  | nothing after => exact .nothing (stays.trans after)
  | all checked after => exact .all (stays.settings ▸ checked) (stays.write.trans after)

/-- The settings stay, and so do the conversations with other peers. -/
theorem Receives.keeps (received : e.Receives peer batch e') : e'.settings = e.settings ∧
    ∀ other, other ≠ peer → e'.conversation other = e.conversation other := by
  cases received with
  | nothing stays => exact ⟨stays.settings, stays.spares⟩
  | all _ stays =>
    exact ⟨stays.settings.trans write_settings,
      fun other differs => (stays.spares other differs).trans conversation_write⟩

theorem accept_receives {s' : Snapshot} (accepted : e.accept s batch = .ok (s', e'))
    (peer : NodeId) : e.Receives peer batch e' := by
  unfold accept at accepted
  split at accepted
  · obtain ⟨-, rfl⟩ := Prod.mk.inj (Except.ok.inj accepted)
    exact .nothing (.refl e peer)
  · split at accepted
    · cases accepted
    · rename_i checked
      obtain ⟨-, rfl⟩ := Prod.mk.inj (Except.ok.inj accepted)
      exact .all checked (.refl _ peer)

private theorem stays_onFirst : e.Stays peer (e.onFirst now peer m).2 := by
  unfold onFirst
  split
  · exact .refl e peer
  · rename_i s opened taken
    have before := stays_snapshot taken peer
    split
    · exact before.trans (stays_release _ _ _)
    · exact before.trans (stays_setConversation _ _ _)

private theorem onSecond_receives : e.Receives peer m.records (e.onSecond started s peer m).2 := by
  unfold onSecond
  split
  · exact .nothing (.refl e peer)
  · rename_i s' e' accepted
    have received := accept_receives accepted peer
    dsimp only
    split
    · exact received
    · exact received.trans (stays_setConversation _ _ _)

private theorem onThird_receives : e.Receives peer m.records (e.onThird s peer m).2 := by
  unfold onThird
  split
  · exact .nothing (.refl e peer)
  · rename_i s' e' accepted
    have received := accept_receives accepted peer
    split
    · exact received
    · exact received.trans (stays_close _ _ _)

private theorem onFourth_receives : e.Receives peer m.records (e.onFourth peer m).2 := by
  unfold onFourth
  split
  · exact .nothing (.refl e peer)
  · rename_i checked
    split
    · exact .nothing (stays_close _ _ _)
    · exact .all checked (stays_close _ _ _)

private theorem advance_receives : e.Receives peer m.records (e.advance now peer m).2 := by
  unfold advance
  split
  · exact .nothing (.refl e peer)
  · split
    · exact .nothing stays_onFirst
    · exact .nothing stays_onFirst
    · exact onSecond_receives
    · exact onThird_receives
    · exact onFourth_receives
    · exact .nothing (.refl e peer)

/-- Whatever a peer sends in whatever state, its records are written after the checks or not at all,
and no other conversation is touched. -/
theorem process_receives (e : Engine) (now : Nat) (peer : NodeId) (m : Message) :
    e.Receives peer m.records (e.process now peer m).2 := by
  have advanced : e.Receives peer m.records ((e.expire now peer).advance now peer m).2 :=
    (stays_expire e now peer).receives advance_receives
  unfold process
  split
  · rename_i step after ran
    exact ran ▸ advanced
  · rename_i error after ran
    rw [ran] at advanced
    exact advanced.trans (stays_close _ _ _)

end Engine

end HashLog
