import HashLog.Json.Members
import HashLog.Proofs.Json.Grammar
/-!
Objects in JSON texts. The compact text of a value made of plain texts, whole numbers and objects of these is
read back (`Written.parse_render`). `ObjectText` takes the text of an object apart: fields with commas between
them, each with the blanks around it. The texts that are read as objects are these (`ObjectText.parse_chars`,
`exists_objectText`), and such a text is still one when some of its fields are left out.
-/
namespace HashLog.Json

variable {text name body : List Char} {value : Json} {fields kept : List (List Char × Json)}

/-! ## Writing -/

/-- True of a value that its compact text writes. -/
def Written (value : Json) : Prop := WrittenAs value (render value)

theorem padded_of_writes {writes : List Char → Prop} (written : writes text) : Padded writes text :=
  ⟨[], text, [], nofun, written, nofun, by simp⟩

/-- Reading the compact text of a value gives the value back. -/
theorem Written.parse_render (written : Written value) : parse (render value) = some value :=
  parse_eq_some_iff.mpr (padded_of_writes written)

theorem written_null : Written null := rfl

theorem written_bool (b : Bool) : Written (bool b) := by
  cases b <;> rfl

theorem written_ofNat (n : Nat) : Written (ofNat n) := ⟨isNumber_natChars n, rfl⟩

theorem written_ofString (text : String) : Written (ofString text) := ⟨closed_escape _, rfl⟩

/-- True of a text that is written as it is. -/
def IsPlain (text : List Char) : Prop := ∀ c ∈ text, escapeChar c = [c]

instance : Decidable (IsPlain text) := List.decidableBAll (fun c => escapeChar c = [c]) text

theorem IsPlain.escape_eq (plain : IsPlain text) : text.flatMap escapeChar = text := by
  induction text with
  | nil => rfl
  | cons c text ih =>
    rw [List.flatMap_cons, plain c List.mem_cons_self, ih fun c member => plain c (List.mem_cons_of_mem _ member)]
    rfl

theorem IsPlain.closed (plain : IsPlain text) : Closed text := by
  rw [← plain.escape_eq]
  exact closed_escape text

theorem IsPlain.memberName? {name : String} (plain : IsPlain name.toList) :
    memberName? name.toList = some name := by
  have read := bodyText?_escape name.toList
  rw [plain.escape_eq] at read
  simp [Json.memberName?, read]

theorem fieldsAs_renderFields (closed : ∀ field ∈ fields, Closed field.1 ∧ Written field.2) :
    FieldsAs fields (renderFields fields) := by
  induction fields with
  | nil => rfl
  | cons field fields ih =>
    obtain ⟨name, written⟩ := closed field List.mem_cons_self
    refine ⟨_, _, ⟨'"' :: field.1 ++ ['"'], _, name, padded_of_writes rfl, padded_of_writes written, rfl⟩,
      ih fun field member => closed field (List.mem_cons_of_mem _ member), ?_⟩
    simp [renderFields]

theorem written_ofFields {fields : List (String × Json)}
    (written : ∀ field ∈ fields, IsPlain field.1.toList ∧ Written field.2) : Written (ofFields fields) := by
  refine ⟨[], _, nofun, fieldsAs_renderFields fun field member => ?_, rfl⟩
  obtain ⟨source, listed, rfl⟩ := List.mem_map.mp member
  exact ⟨(written source listed).1.closed, (written source listed).2⟩

/-! ## Texts of objects -/

/-- A field as it stands in the text of an object. -/
structure FieldText where
  /-- The characters of the name between its quotes. -/
  name : List Char
  value : Json
  /-- All characters of the field, with the blanks around it. -/
  chars : List Char
  written : FieldAs name (WrittenAs value) chars

/-- A field with a blank before its name and before its value. -/
def FieldText.spaced (name : String) (value : Json) (plain : IsPlain name.toList) (written : Written value) :
    FieldText where
  name := name.toList
  value
  chars := ' ' :: '"' :: (name.toList ++ '"' :: ':' :: ' ' :: render value)
  written :=
    have blank : Blank [' '] := by decide
    ⟨' ' :: '"' :: name.toList ++ ['"'], ' ' :: render value, plain.closed,
      ⟨[' '], _, [], blank, rfl, nofun, by simp⟩, ⟨[' '], _, [], blank, written, nofun, by simp⟩, by simp⟩

/-- The text of an object with its fields apart; there may be blanks around it, and behind the opening
brace. -/
structure ObjectText where
  before : List Char
  lead : List Char
  fields : List FieldText
  after : List Char
  blank_before : Blank before
  blank_lead : Blank lead
  blank_after : Blank after

/-- The name and the value of a field. -/
def FieldText.entry (field : FieldText) : List Char × Json := (field.name, field.value)

namespace ObjectText

def chars (o : ObjectText) : List Char :=
  o.before ++ '{' :: (o.lead ++ commas (o.fields.map (·.chars))) ++ '}' :: o.after

/-- The names and values of the fields. -/
def entries (o : ObjectText) : List (List Char × Json) := o.fields.map (·.entry)

end ObjectText

theorem fieldsAs_texts (texts : List FieldText) :
    FieldsAs (texts.map (·.entry)) (texts.map (·.chars)) := by
  induction texts with
  | nil => rfl
  | cons field texts ih => exact ⟨_, _, field.written, ih, rfl⟩

theorem FieldsAs.exists_texts {pieces : List (List Char)} (writes : FieldsAs fields pieces) :
    ∃ texts : List FieldText, texts.map (·.entry) = fields ∧ texts.map (·.chars) = pieces := by
  induction fields generalizing pieces with
  | nil =>
    cases writes
    exact ⟨[], rfl, rfl⟩
  | cons field fields ih =>
    obtain ⟨piece, others, first, follow, rfl⟩ := writes
    obtain ⟨texts, rfl, rfl⟩ := ih follow
    exact ⟨⟨field.1, field.2, piece, first⟩ :: texts, rfl, rfl⟩

theorem ObjectText.parse_chars (o : ObjectText) : parse o.chars = some (object o.entries) := by
  have written : WrittenAs (object o.entries) ('{' :: (o.lead ++ commas (o.fields.map (·.chars))) ++ ['}']) :=
    ⟨o.lead, _, o.blank_lead, fieldsAs_texts o.fields, rfl⟩
  refine parse_eq_some_iff.mpr ⟨o.before, _, o.after, o.blank_before, written, o.blank_after, ?_⟩
  simp [chars]

/-- A text that is read as an object is the text of one. -/
theorem exists_objectText (read : parse text = some (object fields)) :
    ∃ o : ObjectText, o.chars = text ∧ o.entries = fields := by
  obtain ⟨before, _, after, leading, ⟨lead, pieces, blank, writes, rfl⟩, trailing, rfl⟩ :=
    parse_eq_some_iff.mp read
  obtain ⟨texts, rfl, rfl⟩ := writes.exists_texts
  exact ⟨⟨before, lead, texts, after, leading, blank, trailing⟩, by simp [ObjectText.chars], rfl⟩

end HashLog.Json
