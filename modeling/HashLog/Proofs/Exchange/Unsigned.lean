import HashLog.Proofs.Exchange.Holdings
/-!
Records that nobody signed. The placeholder signature has a reduced response and its commitment names a
point, so it is the order of that point, which is four, that strict verification refuses it for
(`PublicKey.verify_of_small_commitment`); the equation itself is never looked at. An engine that knows
the writer therefore takes no unsigned record from a peer: whatever peers send, the unsigned records of
its log were stored before or are written here (`Engine.operateAll_vouched`).
-/
namespace HashLog

/-! ## Signatures -/

/-- Whatever the key and the message, a commitment of small order is refused. Only a key that names no
point is reported first. -/
theorem PublicKey.verify_of_small_commitment {signature : Signature} {point : Edwards.Point}
    (named : Edwards.Point.unpack? (ofLittleEndian signature.commitment) = some point)
    (small : point.hasSmallOrder = true) (key : PublicKey) (message : List UInt8) :
    key.verify message signature = .error
      (if (Edwards.Point.unpack? key.toNat).isSome then .invalidSignature else .invalidPublicKey) := by
  unfold verify
  cases Edwards.Point.unpack? key.toNat with
  | none => rfl
  | some own =>
    rw [Option.elim_some, named, Option.elim_some, small]
    simp

namespace Signature

/-- The commitment of the placeholder names a point whose `y` is zero. -/
theorem unpack?_commitment_unsigned :
    Edwards.Point.unpack? (ofLittleEndian unsigned.commitment) = some ⟨Edwards.rootOfMinusOne, 0, 1, 0⟩ := by
  decide +kernel

/-- The order of that point is four. -/
theorem hasSmallOrder_unsigned :
    (⟨Edwards.rootOfMinusOne, 0, 1, 0⟩ : Edwards.Point).hasSmallOrder = true := by
  decide +kernel

end Signature

/-- No key verifies the placeholder, of whatever message. -/
theorem PublicKey.verify_unsigned (key : PublicKey) (message : List UInt8) :
    key.verify message .unsigned = .error
      (if (Edwards.Point.unpack? key.toNat).isSome then .invalidSignature else .invalidPublicKey) :=
  verify_of_small_commitment Signature.unpack?_commitment_unsigned Signature.hasSmallOrder_unsigned key
    message

namespace Record

/-- An unsigned record fails its structural checks or that of its signature. -/
theorem validate_unsigned {record : Record} (bare : record.signature = .unsigned) (key : PublicKey) :
    ∃ fault, record.validate (some key) = .error fault ∧
      (record.validateStructure = .ok () → fault = .signatureFailed record.hash) := by
  unfold validate
  cases record.validateStructure with
  | error fault => exact ⟨fault, rfl, nofun⟩
  | ok passed =>
    refine ⟨.signatureFailed record.hash, ?_, fun _ => rfl⟩
    change record.validateSignature (some key) = _
    rw [validateSignature, bare, key.verify_unsigned]
    rfl

@[simp] theorem signature_keptAs {durable : Bool} {record : Record} :
    (record.keptAs durable).signature = record.signature := by
  cases durable <;> rfl

end Record

/-! ## Engines -/

/-- The records that an operation writes on behalf of the engine's own side. -/
def Operation.own : Operation → List Record
  | write batch => batch
  | generate _ _ | process _ _ _ => []

namespace Engine

variable {e e' e'' : Engine} {own more batch : List Record} {peer : NodeId} {key : PublicKey}

/-- A later state of an engine: the unsigned records of its log were there before or are written here. -/
structure Vouched (e : Engine) (own : List Record) (e' : Engine) : Prop where
  settings : e'.settings = e.settings
  filed : e'.store.Filed
  durable : e'.store.medium.durable = e.store.medium.durable
  unsigned : ∀ record ∈ e'.store.log, record.signature = .unsigned →
    record ∈ e.store.log ∨ ∃ original ∈ own, original.keptAs e.store.medium.durable = record

theorem Same.vouched (same : e.Same e') (filed : e.store.Filed) : e.Vouched own e' :=
  ⟨same.settings, filed.congr same.medium, by rw [same.medium],
    fun _ member _ => Or.inl (Store.log_congr same.medium ▸ member)⟩

theorem Vouched.trans (first : e.Vouched own e') (second : e'.Vouched more e'') :
    e.Vouched (own ++ more) e'' := by
  refine ⟨second.settings.trans first.settings, second.filed, second.durable.trans first.durable, ?_⟩
  intro record member bare
  rcases second.unsigned record member bare with old | ⟨original, listed, kept⟩
  · refine (first.unsigned record old bare).imp_right ?_
    rintro ⟨original, listed, kept⟩
    exact ⟨original, List.mem_append_left more listed, kept⟩
  · exact Or.inr ⟨original, List.mem_append_right own listed, first.durable ▸ kept⟩

/-- A batch whose unsigned records are written here. -/
theorem write_vouched (filed : e.store.Filed)
    (entered : ∀ record ∈ batch, record.signature = .unsigned → record ∈ own) :
    e.Vouched own (e.write batch).2 := by
  refine ⟨write_settings, ?_, ?_, ?_⟩
  · rw [write_store]
    exact filed.write batch
  · rw [write_store, Store.durable_write]
  · intro record member bare
    rw [write_store, (filed.lists.write batch).log_eq] at member
    refine (mem_addRecords member).imp_right fun new => ?_
    obtain ⟨original, listed, rfl⟩ := List.mem_map.mp new
    rw [Record.signature_keptAs] at bare
    exact ⟨original, entered original (List.mem_filter.mp listed).1 bare, rfl⟩

/-- A message brings no unsigned record where the writer is known. -/
theorem Receives.vouched (received : e.Receives peer batch e') (filed : e.store.Filed)
    (verify : e.settings.verify = true) (writer : e.settings.writer = some key) :
    e.Vouched [] e' := by
  cases received with
  | nothing stays => exact stays.toSame.vouched filed
  | all checked stays =>
    have written : e.Vouched [] (e.write batch).2 := write_vouched filed fun record member bare => by
      have valid := Settings.validate_of_checkRecords verify checked record member
      obtain ⟨fault, refused, -⟩ := record.validate_unsigned bare key
      rw [writer, refused] at valid
      cases valid
    exact written.trans (stays.toSame.vouched written.filed)

theorem operate_vouched (filed : e.store.Filed) (verify : e.settings.verify = true)
    (writer : e.settings.writer = some key) (op : Operation) : e.Vouched op.own (e.operate op).2 := by
  cases op with
  | generate now peer => exact (stays_generate e now peer).toSame.vouched filed
  | process now peer m => exact (e.process_receives now peer m).vouched filed verify writer
  | write batch => exact write_vouched filed fun record member _ => member

theorem operateAll_vouched (filed : e.store.Filed) (verify : e.settings.verify = true)
    (writer : e.settings.writer = some key) (ops : List Operation) :
    e.Vouched (ops.flatMap Operation.own) (e.operateAll ops).2 := by
  induction ops generalizing e with
  | nil => exact (Same.refl e).vouched filed
  | cons op rest ih =>
    have first := operate_vouched filed verify writer op
    exact first.trans (ih first.filed (first.settings ▸ verify) (first.settings ▸ writer))

end Engine

/-- No key verifies the placeholder signature of any hash, so an unsigned record is refused wherever the
writer is known. An engine that checks records against a writer's key therefore stores no unsigned record
that a peer sends: whatever happens to it, each unsigned record of its log was stored when it started, or
is the form in which the store keeps one that was written here. -/
theorem unsigned_records_stay_out :
    (∀ (key : PublicKey) (hash : Hash), ∃ fault, key.verify hash.toList .unsigned = .error fault) ∧
    (∀ (key : PublicKey) (record : Record), record.signature = .unsigned →
      ∃ fault, record.validate (some key) = .error fault) ∧
    ∀ {kind : BackendKind} {store : Store} {settings : Settings} {e : Engine} {key : PublicKey},
      store.Reachable Set.univ → Engine.start kind store settings = .ok e →
      settings.verify = true → settings.writer = some key → ∀ ops : List Operation,
      ∀ record ∈ (e.operateAll ops).2.store.log, record.signature = .unsigned →
        record ∈ store.log ∨ ∃ batch, .write batch ∈ ops ∧
          ∃ original ∈ batch, original.keptAs store.medium.durable = record := by
  refine ⟨fun key hash => ⟨_, key.verify_unsigned hash.toList⟩, fun key record bare => ?_, ?_⟩
  · exact (record.validate_unsigned bare key).imp fun _ => And.left
  intro kind store settings e key filled started verify writer ops record member bare
  obtain ⟨rfl, rfl, -⟩ := Engine.start_fields started
  refine ((Engine.operateAll_vouched filled.filed verify writer ops).unsigned record member bare).imp_right ?_
  rintro ⟨original, own, kept⟩
  obtain ⟨op, listed, written⟩ := List.mem_flatMap.mp own
  cases op with
  | write batch => exact ⟨batch, listed, original, written, kept⟩
  | generate | process => cases written

/-- A peer answers with an unsigned record whose hash is right, the writer's key names a point of small
order, and an unsigned record that is written here stays. -/
theorem unsigned_records_stay_out_of_reply :
    let peer : NodeId := ⟨.fill 32 1⟩
    let settings : Settings := { Settings.standard with writer := some ⟨.fill 32 0⟩ }
    let e : Engine := ⟨settings, .store, (Store.durable.write [Sample.trunk]).2, ∅⟩
    let draft : Record := { Sample.trunk with value := [7] }
    let bare : Record := { draft with hash := draft.contentHash }
    let ops : List Operation := [.generate 0 peer, .process 0 peer (.second [] [] [bare]), .write [Sample.twig]]
    e.store.Reachable Set.univ ∧ Engine.start .store e.store settings = .ok e ∧
      bare.validateStructure = .ok () ∧ bare.signature = .unsigned ∧
      bare ∉ (e.operateAll ops).2.store.log ∧ Sample.twig ∈ (e.operateAll ops).2.store.log := by
  intro peer settings e draft bare ops
  have filled : e.store.Reachable Set.univ := .write .durable fun _ _ => Set.mem_univ _
  have started : Engine.start .store e.store settings = .ok e := rfl
  refine ⟨filled, started, by decide +kernel, rfl, fun member => ?_, by decide +kernel⟩
  have only : ∀ record ∈ e.store.log, record.value = [] := by decide
  rcases unsigned_records_stay_out.2.2 filled started rfl rfl ops bare member rfl with
    stored | ⟨batch, listed, original, written, kept⟩
  · exact absurd (only bare stored) (by decide)
  · obtain rfl : batch = [Sample.twig] := by simpa [ops] using listed
    obtain rfl := List.mem_singleton.mp written
    exact absurd (congrArg Record.value kept) (by decide)

end HashLog
