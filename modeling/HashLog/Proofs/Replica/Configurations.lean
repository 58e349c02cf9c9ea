import HashLog.Proofs.Bytes.Spellings
import HashLog.Proofs.Json.Members
import HashLog.Proofs.Replica.Fleet
/-!
Configurations of replicas and their JSON form. A configuration is read back from what it is written as
(`ReplicaConfig.ofJson?_toJson`), and passes the checks if a replica can run with it (`Runnable`). What is
accepted stays so without the fields that hold what holds without them (`ofText_of_sublist`), and gives the
engine its own values: the ranges that are checked lie within the bounds that the engine keeps to
(`configurations_survive_json`).
-/
namespace HashLog

open Json (Written)

theorem BackendKind.written_toJson (kind : BackendKind) : Written kind.toJson := Json.written_ofString _

theorem BackendKind.ofJson?_toJson (kind : BackendKind) : ofJson? kind.toJson = some kind := by
  cases kind <;> simp [ofJson?, toJson, Json.choice?_ofString, Json.isNothing, name]

namespace HeartbeatMode

theorem plain_fanout : Json.IsPlain "fanout".toList := by decide

theorem written_toJson (mode : HeartbeatMode) : Written mode.toJson := by
  cases mode with
  | cycle | random => exact Json.written_ofString _
  | fanout degree =>
    refine Json.written_ofFields fun field member => ?_
    obtain rfl := List.mem_singleton.mp member
    exact ⟨plain_fanout, Json.written_ofNat _⟩

theorem ofJson?_toJson (mode : HeartbeatMode) : ofJson? mode.toJson = some mode := by
  cases mode with
  | cycle | random => simp [ofJson?, toJson, Json.choice?_ofString, Json.isNothing]
  | fanout degree => simp [ofJson?, toJson, Json.choice?_ofFields plain_fanout, Json.uint64?_ofNat]

end HeartbeatMode

namespace ReplicaConfig

variable {c : ReplicaConfig}

/-! ## The JSON form -/

theorem plain_fieldNames : ∀ name ∈ fieldNames, Json.IsPlain name.toList := by decide

theorem written_toJson (c : ReplicaConfig) : Written c.toJson := by
  refine Json.written_ofFields fun field member => ⟨plain_fieldNames field.1 ?_, ?_⟩
  · exact List.mem_map_of_mem (f := Prod.fst) member
  · have number (n : UInt64) : Written (Json.ofNat n.toNat) := Json.written_ofNat _
    revert field
    simp only [List.forall_mem_cons]
    refine ⟨c.backend.written_toJson, number _, c.heartbeat.written_toJson, number _, number _, number _,
      number _, Json.written_bool _, ?_, nofun⟩
    cases c.writerKey with
    | some text => exact Json.written_ofString text
    | none => exact Json.written_null

/-- The JSON form of the writer's key. -/
def writerJson (c : ReplicaConfig) : Json :=
  match c.writerKey with
  | some text => Json.ofString text
  | none => .null

theorem orNull?_writerJson (c : ReplicaConfig) : Json.orNull? Json.text? c.writerJson = some c.writerKey := by
  unfold writerJson
  cases c.writerKey with
  | some text => exact Json.orNull?_text?_ofString text
  | none => rfl

/-- The JSON form has a member for each field, and no two of one name. -/
theorem members?_toJson (c : ReplicaConfig) : ∃ members, Json.members? fieldNames c.toJson = some members ∧
    (members.map (·.1)).Nodup ∧ ("policy", c.backend.toJson) ∈ members ∧
    ("heartbeat_interval_ms", Json.ofNat c.heartbeatInterval.toNat) ∈ members ∧
    ("heartbeat", c.heartbeat.toJson) ∈ members ∧
    ("conversation_timeout_ms", Json.ofNat c.conversationTimeout.toNat) ∈ members ∧
    ("traversal_limit", Json.ofNat c.traversalLimit.toNat) ∈ members ∧
    ("max_records_per_message", Json.ofNat c.recordsPerMessage.toNat) ∈ members ∧
    ("max_hashes_wanted", Json.ofNat c.hashesWanted.toNat) ∈ members ∧
    ("verify_records", Json.bool c.verify) ∈ members ∧ ("writer_key", c.writerJson) ∈ members := by
  have distinct : fieldNames.Nodup := by decide
  have selected : Json.members? fieldNames c.toJson = some _ :=
    Json.select?_ofFields distinct (fun field member => List.mem_map_of_mem (f := Prod.fst) member)
      (fun field member => plain_fieldNames field.1 (List.mem_map_of_mem (f := Prod.fst) member))
  refine ⟨_, selected, distinct, ?_⟩
  cases writer : c.writerKey <;> simp [writerJson, writer]

theorem ofJson?_toJson (c : ReplicaConfig) : ofJson? c.toJson = some c := by
  obtain ⟨members, selected, distinct, policy, interval, heartbeat, timeout, traversal, records, wanted, verify,
    writer⟩ := c.members?_toJson
  have number {name : String} {n default : UInt64} (listed : (name, Json.ofNat n.toNat) ∈ members) :
      Json.fieldOr? members name Json.uint64? default = some n := by
    rw [Json.fieldOr?_of_mem distinct listed, Json.uint64?_ofNat]
  rw [ofJson?, selected]
  simp only [Option.bind_eq_bind, Option.bind_some]
  rw [Json.fieldOr?_of_mem distinct policy, c.backend.ofJson?_toJson, number interval,
    Json.fieldOr?_of_mem distinct heartbeat, c.heartbeat.ofJson?_toJson, number timeout, number traversal,
    number records, number wanted, Json.fieldOr?_of_mem distinct verify, Json.bool?,
    Json.fieldOr?_of_mem distinct writer, orNull?_writerJson]
  rfl

/-! ## Checks -/

/-- What a replica asks of its configuration. -/
structure Runnable (c : ReplicaConfig) : Prop where
  interval : 0 < c.heartbeatInterval.toNat
  heartbeat : c.heartbeat ≠ .fanout 0
  traversal : 0 < c.traversalLimit.toNat
  records : 0 < c.recordsPerMessage.toNat ∧ c.recordsPerMessage.toNat ≤ Message.maxRecords
  wanted : 0 < c.hashesWanted.toNat ∧ c.hashesWanted.toNat ≤ Message.maxWanted
  /-- The writer's key is the 64 hexadecimal digits of its 32 bytes. -/
  writer : ∀ text ∈ c.writerKey, text.length = 64 ∧ ∀ digit ∈ text.toList, Hex.IsDigit digit

theorem exists_writer_iff : (∃ key, c.writer = .ok key) ↔
    ∀ text ∈ c.writerKey, text.length = 64 ∧ ∀ digit ∈ text.toList, Hex.IsDigit digit := by
  unfold writer
  cases c.writerKey with
  | none => simp
  | some text =>
    have hex : (∃ octets : Octets 32, Octets.ofHex text = .ok octets) ↔
        text.length = 64 ∧ ∀ digit ∈ text.toList, Hex.IsDigit digit := Octets.exists_ofHex_iff
    simp only [Option.mem_some_iff, forall_eq']
    rw [← hex]
    cases (Octets.ofHex text : Except Hex.Fault (Octets 32)) <;> simp

/-- The configurations that pass the checks are those that a replica can run with. -/
theorem validate_eq_ok_iff : c.validate = .ok () ↔ c.Runnable := by
  have writer : (c.writer.map fun _ => ()) = .ok () ↔ ∃ key, c.writer = .ok key := by
    cases c.writer <;> simp [Except.map]
  have zero (n : UInt64) : n = 0 ↔ n.toNat = 0 := UInt64.toNat_inj.symm
  simp only [validate, zero]
  constructor
  · intro valid
    split_ifs at valid with interval heartbeat traversal records wanted
    exact ⟨by omega, heartbeat, by omega, by omega, by omega, exists_writer_iff.mp (writer.mp valid)⟩
  · intro runs
    have := runs.interval
    have := runs.traversal
    have := runs.records
    have := runs.wanted
    rw [if_neg (by omega), if_neg runs.heartbeat, if_neg (by omega), if_neg (by omega), if_neg (by omega)]
    exact writer.mpr (exists_writer_iff.mpr runs.writer)

/-- The settings that a configuration gives the engine are its own values, and need not be held to their
bounds. -/
theorem Runnable.exists_settings (runs : c.Runnable) :
    ∃ key, c.writer = .ok key ∧ c.settings = .ok
      ⟨c.conversationTimeout.toNat, c.traversalLimit.toNat, c.recordsPerMessage.toNat, c.hashesWanted.toNat,
        c.verify, key⟩ := by
  obtain ⟨key, decoded⟩ := exists_writer_iff.mpr runs.writer
  exact ⟨key, decoded, by rw [settings, decoded]; rfl⟩

/-! ## Reading -/

theorem ofText_eq_ok_iff {text : List Char} :
    ofText text = .ok c ↔ (∃ json, Json.parse text = some json ∧ ofJson? json = some c) ∧ c.Runnable := by
  rw [← validate_eq_ok_iff, ← Option.bind_eq_some_iff, ofText]
  cases (Json.parse text).bind ofJson? with
  | none => simp
  | some read =>
    cases valid : read.validate with
    | ok =>
      simp only [valid, Except.ok.injEq, Option.some.injEq]
      exact ⟨fun same => ⟨same, same ▸ valid⟩, And.left⟩
    | error fault =>
      simp only [valid, reduceCtorEq, Option.some.injEq, false_iff, not_and]
      rintro rfl
      rw [valid]
      exact nofun

/-! ## Fields that say nothing new -/

/-- True of a field whose value reads as what holds without it. -/
def IsStandard (name : String) (value : Json) : Prop :=
  match name with
  | "policy" => BackendKind.ofJson? value = some standard.backend
  | "heartbeat_interval_ms" => Json.uint64? value = some standard.heartbeatInterval
  | "heartbeat" => HeartbeatMode.ofJson? value = some standard.heartbeat
  | "conversation_timeout_ms" => Json.uint64? value = some standard.conversationTimeout
  | "traversal_limit" => Json.uint64? value = some standard.traversalLimit
  | "max_records_per_message" => Json.uint64? value = some standard.recordsPerMessage
  | "max_hashes_wanted" => Json.uint64? value = some standard.hashesWanted
  | "verify_records" => Json.bool? value = some standard.verify
  | "writer_key" => Json.orNull? Json.text? value = some standard.writerKey
  | _ => False

/-- What an object says is left to say when fields are left out that hold what holds without them. -/
theorem ofJson?_of_sublist {fields kept : List (List Char × Json)}
    (read : ofJson? (.object fields) = some c) (sub : kept.Sublist fields)
    (gone : ∀ body value, (body, value) ∈ fields → (body, value) ∉ kept →
      ∃ name, Json.memberName? body = some name ∧ IsStandard name value) :
    ofJson? (.object kept) = some c := by
  rw [← read]
  cases selected : Json.select? fieldNames fields with
  | none => simp [ofJson?, Json.members?, selected] at read
  | some members =>
    obtain ⟨left, found⟩ := Json.select?_of_sublist selected sub
    have same {α : Type} (name : String) (read? : Json → Option α) (default : α)
        (standard : ∀ value, IsStandard name value → read? value = some default) :
        Json.fieldOr? left name read? default = Json.fieldOr? members name read? default := by
      refine Json.fieldOr?_of_select? selected found sub fun body value listed absent named => ?_
      obtain ⟨name', named', holds⟩ := gone body value listed absent
      obtain rfl : name' = name := by simpa [named'] using named
      exact standard value holds
    simp only [ofJson?, Json.members?, selected, found, Option.bind_eq_bind, Option.bind_some]
    rw [same "policy" _ _ fun _ => id, same "heartbeat_interval_ms" _ _ fun _ => id,
      same "heartbeat" _ _ fun _ => id, same "conversation_timeout_ms" _ _ fun _ => id,
      same "traversal_limit" _ _ fun _ => id, same "max_records_per_message" _ _ fun _ => id,
      same "max_hashes_wanted" _ _ fun _ => id, same "verify_records" _ _ fun _ => id,
      same "writer_key" _ _ fun _ => id]

/-- The text of an object reads the same without fields that hold what holds without them. -/
theorem ofText_of_sublist {o : Json.ObjectText} {kept : List Json.FieldText} (read : ofText o.chars = .ok c)
    (sub : kept.Sublist o.fields)
    (gone : ∀ field ∈ o.fields, field ∉ kept →
      ∃ name, Json.memberName? field.name = some name ∧ IsStandard name field.value) :
    ofText { o with fields := kept }.chars = .ok c := by
  obtain ⟨⟨json, parsed, given⟩, runs⟩ := ofText_eq_ok_iff.mp read
  rw [o.parse_chars] at parsed
  obtain rfl := Option.some.inj parsed
  refine ofText_eq_ok_iff.mpr ⟨⟨_, Json.ObjectText.parse_chars _, ?_⟩, runs⟩
  refine ofJson?_of_sublist given (sub.map _) fun body value listed absent => ?_
  obtain ⟨field, member, same⟩ := List.mem_map.mp listed
  cases same
  exact gone field member fun stays => absent (List.mem_map_of_mem stays)

theorem Runnable.ofText_toText (runs : c.Runnable) : ofText c.toText = .ok c :=
  ofText_eq_ok_iff.mpr ⟨⟨c.toJson, (written_toJson c).parse_render, ofJson?_toJson c⟩, runs⟩

end ReplicaConfig

/-- The configurations that pass the checks are those that a replica can run with, and each is read back from
its JSON form as it was. Whatever text a configuration was read from, it gives settings with its own values,
which are those that a replica's engine gets: neither budget is changed by its bounds, and a walk may pass
through a record at least. A text that is read as an object has its fields apart, and is read as the same
configuration without any of the fields that hold what holds without them. -/
theorem configurations_survive_json :
    (∀ c : ReplicaConfig, c.validate = .ok () ↔ c.Runnable) ∧
    (∀ c : ReplicaConfig, c.validate = .ok () → ReplicaConfig.ofText c.toText = .ok c) ∧
    ∀ (text : List Char) (c : ReplicaConfig), ReplicaConfig.ofText text = .ok c →
      (∃ settings, c.settings = .ok settings ∧
        settings.recordBudget = c.recordsPerMessage.toNat ∧
        settings.recordsPerMessage = c.recordsPerMessage.toNat ∧
        settings.wantedBudget = c.hashesWanted.toNat ∧ settings.hashesWanted = c.hashesWanted.toNat ∧
        settings.traversalLimit = c.traversalLimit.toNat ∧ 1 ≤ settings.traversalLimit ∧
        settings.timeout = c.conversationTimeout.toNat ∧ settings.verify = c.verify ∧
        c.writer = .ok settings.writer ∧
        ∀ id store keys r, Replica.start c id store keys = .ok r → r.engine.settings = settings) ∧
      (∀ fields, Json.parse text = some (.object fields) →
        ∃ o : Json.ObjectText, o.chars = text ∧ o.entries = fields) ∧
      ∀ o : Json.ObjectText, o.chars = text → ∀ kept : List Json.FieldText, kept.Sublist o.fields →
        (∀ field ∈ o.fields, field ∉ kept →
          ∃ name, Json.memberName? field.name = some name ∧ ReplicaConfig.IsStandard name field.value) →
        ReplicaConfig.ofText { o with fields := kept }.chars = .ok c := by
  refine ⟨fun c => ReplicaConfig.validate_eq_ok_iff, fun c valid => ?_, fun text c read => ⟨?_, ?_, ?_⟩⟩
  · exact (ReplicaConfig.validate_eq_ok_iff.mp valid).ofText_toText
  · have runs := (ReplicaConfig.ofText_eq_ok_iff.mp read).2
    obtain ⟨key, decoded, given⟩ := runs.exists_settings
    refine ⟨_, given, ?_, rfl, ?_, rfl, rfl, runs.traversal, rfl, rfl, decoded, ?_⟩
    · have := runs.records
      change max 1 (min c.recordsPerMessage.toNat Message.maxRecords) = _
      omega
    · have := runs.wanted
      change max 1 (min c.hashesWanted.toNat Message.maxWanted) = _
      omega
    · intro id store keys r started
      obtain ⟨-, settings, given', built, -⟩ := Replica.start_eq_ok started
      obtain rfl := Except.ok.inj (given'.symm.trans given)
      exact (Engine.start_fields built).2.1
  · exact fun fields parsed => Json.exists_objectText parsed
  · rintro o rfl kept sub gone
    exact ReplicaConfig.ofText_of_sublist read sub gone

namespace ReplicaConfig

/-- A configuration with values at the ends of their ranges, and a key in digits of both cases. -/
def unusual : ReplicaConfig :=
  { standard with
    heartbeat := .fanout 3
    conversationTimeout := 18446744073709551615
    recordsPerMessage := 1
    writerKey := some "3D4017C3E843895A92B70AA74D1B7EBC9C982CCF2EC4968CC0CD55F12AF4660c" }

/-- The standard configuration, but for the hashes that a message asks for. -/
def modest : ReplicaConfig := { standard with hashesWanted := 7 }

def wanted : Json.FieldText := .spaced "max_hashes_wanted" (Json.ofNat 7) (by decide) (Json.written_ofNat 7)

/-- A field that is passed over. -/
def note : Json.FieldText := .spaced "note" .null (by decide) Json.written_null

/-- A field that holds anyway. -/
def verified : Json.FieldText := .spaced "verify_records" (.bool true) (by decide) (Json.written_bool true)

/-- The text of `modest` that says more than it needs to. -/
def wordy : Json.ObjectText where
  before := ['\n']
  lead := []
  fields := [wanted, note, verified]
  after := []
  blank_before := by decide
  blank_lead := nofun
  blank_after := nofun

end ReplicaConfig

theorem configurations_survive_json_of_wordy :
    ReplicaConfig.ofText ReplicaConfig.unusual.toText = .ok ReplicaConfig.unusual ∧
    (∃ r, Replica.start ReplicaConfig.modest ⟨.fill 32 1⟩ .durable none = .ok r ∧
      r.engine.settings.wantedBudget = 7 ∧ 1 ≤ r.engine.settings.traversalLimit) ∧
    ReplicaConfig.ofText { ReplicaConfig.wordy with fields := [ReplicaConfig.wanted, ReplicaConfig.note] }.chars =
      .ok ReplicaConfig.modest := by
  have accepted : ReplicaConfig.ofText ReplicaConfig.wordy.chars = .ok ReplicaConfig.modest := rfl
  obtain ⟨-, survives, reads⟩ := configurations_survive_json
  obtain ⟨⟨settings, -, -, -, wanted, -, -, walks, -, -, -, reaches⟩, -, shorter⟩ := reads _ _ accepted
  refine ⟨survives _ rfl, ⟨_, rfl, ?_⟩, shorter _ rfl _ ?_ ?_⟩
  · rw [reaches ⟨.fill 32 1⟩ .durable none _ rfl]
    exact ⟨wanted, walks⟩
  · simp [ReplicaConfig.wordy]
  · intro field listed gone
    obtain rfl : field = ReplicaConfig.verified := by
      simp only [List.mem_cons, not_or] at gone
      simpa [ReplicaConfig.wordy, gone] using listed
    exact ⟨"verify_records", rfl, rfl⟩

end HashLog
