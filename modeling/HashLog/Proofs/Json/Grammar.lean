import Mathlib.Data.List.DropRight
import HashLog.Proofs.Json.Literals
import HashLog.Proofs.Json.Strings
/-!
The grammar of JSON texts. `Json.WrittenAs` says which texts write a value, by recursion on the value; blanks
may stand around every value and every name. A text is read as a value exactly if it writes it, with blanks
around it (`parse_eq_some_iff`): what is read was written (`ReadsRight`, by induction on the fuel), and what
is written is read with fuel for twice its characters (`readBack`, by recursion on the value).
-/
namespace HashLog.Json

/-! ## The grammar -/

/-- Nothing but blanks. -/
def Blank (text : List Char) : Prop := ∀ c ∈ text, isBlank c = true

-- The instance is named since there are finitely many characters, and all of them could be tried instead.
instance (text : List Char) : Decidable (Blank text) := List.decidableBAll (isBlank · = true) text

/-- A text with blanks around it. -/
def Padded (writes : List Char → Prop) (text : List Char) : Prop :=
  ∃ before body after, Blank before ∧ writes body ∧ Blank after ∧ text = before ++ (body ++ after)

/-- A field of an object: its name in quotes, a colon, and its value. -/
def FieldAs (name : List Char) (writes : List Char → Prop) (text : List Char) : Prop :=
  ∃ label content, Closed name ∧ Padded (· = '"' :: name ++ ['"']) label ∧ Padded writes content ∧
    text = label ++ ':' :: content

mutual

/-- The texts that write a value, without blanks around it. -/
def WrittenAs : Json → List Char → Prop
  | null, text => text = "null".toList
  | bool true, text => text = "true".toList
  | bool false, text => text = "false".toList
  | number literal, text => IsNumber literal ∧ text = literal
  | string body, text => Closed body ∧ text = '"' :: body ++ ['"']
  | array items, text =>
    ∃ lead pieces, Blank lead ∧ ItemsAs items pieces ∧ text = '[' :: (lead ++ commas pieces) ++ [']']
  | object fields, text =>
    ∃ lead pieces, Blank lead ∧ FieldsAs fields pieces ∧ text = '{' :: (lead ++ commas pieces) ++ ['}']

/-- The texts between the commas of an array. -/
def ItemsAs : List Json → List (List Char) → Prop
  | [], pieces => pieces = []
  | item :: items, pieces =>
    ∃ piece others, Padded (WrittenAs item) piece ∧ ItemsAs items others ∧ pieces = piece :: others

/-- The texts between the commas of an object. -/
def FieldsAs : List (List Char × Json) → List (List Char) → Prop
  | [], pieces => pieces = []
  | (name, value) :: fields, pieces =>
    ∃ piece others, FieldAs name (WrittenAs value) piece ∧ FieldsAs fields others ∧ pieces = piece :: others

end

variable {text rest before name body : List Char} {value item : Json} {items : List Json}
  {fields : List (List Char × Json)} {pieces : List (List Char)} {fuel : Nat}

/-! ## Blanks -/

theorem skipBlanks_append (blank : Blank before) : skipBlanks (before ++ text) = skipBlanks text :=
  List.dropWhile_append_of_pos blank

theorem skipBlanks_eq_nil : skipBlanks text = [] ↔ Blank text := List.dropWhile_eq_nil_iff

theorem skipBlanks_cons {c : Char} (visible : isBlank c = false) :
    skipBlanks (c :: text) = c :: text := List.dropWhile_cons_of_neg (by simp [visible])

theorem exists_blank (text : List Char) : ∃ before, Blank before ∧ text = before ++ skipBlanks text :=
  ⟨text.takeWhile isBlank, fun _ member => List.mem_takeWhile_imp member,
    List.takeWhile_append_dropWhile.symm⟩

theorem skipBlanks_skipBlanks : skipBlanks (skipBlanks text) = skipBlanks text :=
  List.dropWhile_idempotent _ _

/-- Blanks and what comes after them do not continue a number. -/
theorem Blank.spares (blank : Blank text) (ends : Spares continuesNumber rest) :
    Spares continuesNumber (text ++ rest) := by
  cases text with
  | nil => exact ends
  | cons c text =>
    rintro c ⟨⟩
    have seen := blank c List.mem_cons_self
    simp only [isBlank, Bool.or_eq_true, beq_iff_eq] at seen
    rcases seen with ((rfl | rfl) | rfl) | rfl <;> rfl

theorem commas_cons (piece : List Char) (others : pieces ≠ []) :
    commas (piece :: pieces) = piece ++ ',' :: commas pieces := by
  cases pieces with
  | nil => exact absurd rfl others
  | cons => rfl

theorem ItemsAs.ne_nil (writes : ItemsAs (item :: items) pieces) : pieces ≠ [] := by
  obtain ⟨_, _, _, _, rfl⟩ := writes
  exact List.cons_ne_nil _ _

theorem FieldsAs.ne_nil (writes : FieldsAs ((name, value) :: fields) pieces) : pieces ≠ [] := by
  obtain ⟨_, _, _, _, rfl⟩ := writes
  exact List.cons_ne_nil _ _

/-! ## What is read was written -/

/-- With so much fuel, everything that is read was written in front of the rest. -/
structure ReadsRight (fuel : Nat) : Prop where
  value : ∀ {text value rest}, valueWith fuel text = some (value, rest) →
    ∃ before body, Blank before ∧ WrittenAs value body ∧ text = before ++ (body ++ rest)
  items : ∀ {text items rest}, itemsWith fuel text = some (items, rest) →
    ∃ pieces, pieces ≠ [] ∧ ItemsAs items pieces ∧ text = commas pieces ++ ']' :: rest
  fields : ∀ {text fields rest}, fieldsWith fuel text = some (fields, rest) →
    ∃ pieces, pieces ≠ [] ∧ FieldsAs fields pieces ∧ text = commas pieces ++ '}' :: rest

theorem word?_eq_some {word : List Char} (read : word? word text = some rest) : text = word ++ rest := by
  unfold word? at read
  split at read
  · next begins =>
    cases read
    obtain ⟨tail, rfl⟩ := List.isPrefixOf_iff_prefix.mp begins
    simp
  · cases read

/-- One more step: the first character behind the blanks tells which kind of value was read. -/
theorem ReadsRight.value_succ (right : ReadsRight fuel)
    (read : valueWith (fuel + 1) text = some (value, rest)) :
    ∃ before body, Blank before ∧ WrittenAs value body ∧ text = before ++ (body ++ rest) := by
  obtain ⟨before, blank, split⟩ := exists_blank text
  suffices written : ∃ body, WrittenAs value body ∧ skipBlanks text = body ++ rest by
    obtain ⟨body, writes, all⟩ := written
    exact ⟨before, body, blank, writes, by rw [← all]; exact split⟩
  rw [valueWith] at read
  split at read
  case h_1 begins | h_2 begins | h_3 begins =>
    obtain ⟨_, word, same⟩ := Option.map_eq_some_iff.mp read
    cases same
    exact ⟨_, rfl, by rw [begins, word?_eq_some word]; rfl⟩
  case h_4 begins =>
    obtain ⟨⟨body, _⟩, found, same⟩ := Option.map_eq_some_iff.mp read
    cases same
    obtain ⟨closed, rfl⟩ := body?_eq_some_iff.mp found
    exact ⟨_, ⟨closed, rfl⟩, by rw [begins]; simp⟩
  case h_5 tail begins =>
    obtain ⟨lead, blank, inner⟩ := exists_blank tail
    split at read
    case h_1 close =>
      cases read
      exact ⟨_, ⟨lead, [], blank, rfl, rfl⟩, by rw [begins, inner, close]; simp [commas]⟩
    case h_2 =>
      obtain ⟨⟨items, _⟩, found, same⟩ := Option.map_eq_some_iff.mp read
      cases same
      obtain ⟨pieces, -, writes, all⟩ := right.items found
      exact ⟨_, ⟨lead, pieces, blank, writes, rfl⟩, by rw [begins, inner, all]; simp⟩
  case h_6 tail begins =>
    obtain ⟨lead, blank, inner⟩ := exists_blank tail
    split at read
    case h_1 close =>
      cases read
      exact ⟨_, ⟨lead, [], blank, rfl, rfl⟩, by rw [begins, inner, close]; simp [commas]⟩
    case h_2 =>
      obtain ⟨⟨fields, _⟩, found, same⟩ := Option.map_eq_some_iff.mp read
      cases same
      obtain ⟨pieces, -, writes, all⟩ := right.fields found
      exact ⟨_, ⟨lead, pieces, blank, writes, rfl⟩, by rw [begins, inner, all]; simp⟩
  case h_7 =>
    obtain ⟨⟨literal, _⟩, found, same⟩ := Option.map_eq_some_iff.mp read
    cases same
    obtain ⟨isNumber, all⟩ := isNumber_of_number? found
    exact ⟨_, ⟨isNumber, rfl⟩, all⟩

/-- A value with the blanks on both sides of it, in front of what is not blank. -/
theorem ReadsRight.padded (right : ReadsRight fuel) (read : valueWith fuel text = some (value, rest)) :
    ∃ piece, Padded (WrittenAs value) piece ∧ text = piece ++ skipBlanks rest := by
  obtain ⟨before, body, blank, writes, rfl⟩ := right.value read
  obtain ⟨after, trailing, split⟩ := exists_blank rest
  refine ⟨before ++ (body ++ after), ⟨before, body, after, blank, writes, trailing, rfl⟩, ?_⟩
  rw [List.append_assoc, List.append_assoc, ← split]

theorem ReadsRight.items_succ (right : ReadsRight fuel)
    (read : itemsWith (fuel + 1) text = some (items, rest)) :
    ∃ pieces, pieces ≠ [] ∧ ItemsAs items pieces ∧ text = commas pieces ++ ']' :: rest := by
  rw [itemsWith] at read
  split at read
  case h_1 => cases read
  case h_2 item tail first =>
    obtain ⟨piece, writes, all⟩ := right.padded first
    split at read
    case h_1 comma =>
      obtain ⟨⟨items, _⟩, found, same⟩ := Option.map_eq_some_iff.mp read
      cases same
      obtain ⟨pieces, others, follow, left⟩ := right.items found
      refine ⟨piece :: pieces, by simp, ⟨piece, pieces, writes, follow, rfl⟩, ?_⟩
      rw [all, comma, left, commas_cons piece others]
      simp
    case h_2 close =>
      cases read
      exact ⟨[piece], by simp, ⟨piece, [], writes, rfl, rfl⟩, by rw [all, close]; rfl⟩
    case h_3 => cases read

theorem ReadsRight.fields_succ (right : ReadsRight fuel)
    (read : fieldsWith (fuel + 1) text = some (fields, rest)) :
    ∃ pieces, pieces ≠ [] ∧ FieldsAs fields pieces ∧ text = commas pieces ++ '}' :: rest := by
  obtain ⟨before, blank, lead⟩ := exists_blank text
  rw [fieldsWith] at read
  split at read
  case h_2 => cases read
  case h_1 tail quote =>
    split at read
    case h_1 => cases read
    case h_2 name tail' found =>
      obtain ⟨closed, rfl⟩ := body?_eq_some_iff.mp found
      split at read
      case h_2 => cases read
      case h_1 content colon =>
        obtain ⟨after, trailing, gap⟩ := exists_blank tail'
        have label : Padded (· = '"' :: name ++ ['"']) (before ++ ('"' :: name ++ ['"'] ++ after)) :=
          ⟨before, _, after, blank, rfl, trailing, rfl⟩
        have start : text = before ++ ('"' :: name ++ ['"'] ++ after) ++ ':' :: content := by
          rw [lead, quote, gap, colon]
          simp
        split at read
        case h_1 => cases read
        case h_2 value tail'' first =>
          obtain ⟨piece, writes, all⟩ := right.padded first
          have field : FieldAs name (WrittenAs value)
              (before ++ ('"' :: name ++ ['"'] ++ after) ++ ':' :: piece) :=
            ⟨_, piece, closed, label, writes, rfl⟩
          split at read
          case h_1 comma =>
            obtain ⟨⟨fields, _⟩, found, same⟩ := Option.map_eq_some_iff.mp read
            cases same
            obtain ⟨pieces, others, follow, left⟩ := right.fields found
            refine ⟨_ :: pieces, by simp, ⟨_, pieces, field, follow, rfl⟩, ?_⟩
            rw [start, all, comma, left, commas_cons _ others]
            simp
          case h_2 close =>
            cases read
            exact ⟨[_], by simp, ⟨_, [], field, rfl, rfl⟩, by rw [start, all, close]; simp [commas]⟩
          case h_3 => cases read

theorem readsRight (fuel : Nat) : ReadsRight fuel := by
  induction fuel with
  | zero => exact ⟨nofun, nofun, nofun⟩
  | succ fuel right => exact ⟨right.value_succ, right.items_succ, right.fields_succ⟩

/-! ## What is written is read -/

theorem IsNumber.begins {literal : List Char} (number : IsNumber literal) :
    ∃ c more, literal = c :: more ∧ (c = '-' ∨ c.isDigit = true) := by
  obtain ⟨sign, whole, fraction, exponent, signed, isWhole, -, -, rfl⟩ := number
  rcases signed with rfl | rfl
  · obtain ⟨c, more, rfl, digit⟩ := isWhole.begins
    exact ⟨c, _, rfl, .inr digit⟩
  · exact ⟨'-', _, rfl, .inl rfl⟩

theorem isBlank_of_begins {c : Char} (first : c = '-' ∨ c.isDigit = true) : isBlank c = false := by
  rcases first with rfl | digit
  · rfl
  · simp only [isBlank, Bool.or_eq_false_iff, beq_eq_false_iff_ne]
    refine ⟨⟨⟨?_, ?_⟩, ?_⟩, ?_⟩ <;> (rintro rfl; cases digit)

/-- A value begins with a character that is neither a blank nor a closing bracket. -/
theorem WrittenAs.begins (written : WrittenAs value text) :
    ∃ c more, text = c :: more ∧ isBlank c = false ∧ c ≠ ']' := by
  cases value with
  | null => exact ⟨'n', _, written, rfl, by decide⟩
  | bool value =>
    cases value with
    | true => exact ⟨'t', _, written, rfl, by decide⟩
    | false => exact ⟨'f', _, written, rfl, by decide⟩
  | number literal =>
    obtain ⟨number, rfl⟩ := written
    obtain ⟨c, more, rfl, first⟩ := number.begins
    refine ⟨c, more, rfl, isBlank_of_begins first, ?_⟩
    rintro rfl
    rcases first with other | digit
    · cases other
    · cases digit
  | string body => exact ⟨'"', _, written.2, rfl, by decide⟩
  | array items =>
    obtain ⟨lead, pieces, -, -, rfl⟩ := written
    exact ⟨'[', _, rfl, rfl, by decide⟩
  | object fields =>
    obtain ⟨lead, pieces, -, -, rfl⟩ := written
    exact ⟨'{', _, rfl, rfl, by decide⟩

theorem valueWith_append (blank : Blank before) :
    valueWith fuel (before ++ text) = valueWith fuel text := by
  cases fuel with
  | zero => rfl
  | succ fuel => rw [valueWith, valueWith, skipBlanks_append blank]

theorem itemsWith_skipBlanks : itemsWith fuel (skipBlanks text) = itemsWith fuel text := by
  cases fuel with
  | zero => rfl
  | succ fuel =>
    obtain ⟨before, blank, split⟩ := exists_blank text
    rw [itemsWith, itemsWith, ← valueWith_append blank, ← split]

theorem fieldsWith_skipBlanks : fieldsWith fuel (skipBlanks text) = fieldsWith fuel text := by
  cases fuel with
  | zero => rfl
  | succ fuel => rw [fieldsWith, fieldsWith, skipBlanks_skipBlanks]

theorem word?_append (word rest : List Char) : word? word (word ++ rest) = some rest := by
  rw [word?, if_pos (List.isPrefixOf_iff_prefix.mpr (List.prefix_append word rest)), List.drop_left]

theorem valueWith_number {literal : List Char} (number : IsNumber literal)
    (ends : Spares continuesNumber rest) :
    valueWith (fuel + 1) (literal ++ rest) = some (.number literal, rest) := by
  have read := number?_append number ends
  obtain ⟨c, more, rfl, first⟩ := number.begins
  rw [valueWith, List.cons_append, skipBlanks_cons (isBlank_of_begins first)]
  split
  case h_7 => rw [← List.cons_append, read]; rfl
  all_goals
    next begins =>
    cases begins
    rcases first with other | digit
    · cases other
    · cases digit

/-- Commas and brackets end a value. -/
theorem spares_cons {c : Char} (other : continuesNumber c = false) :
    Spares continuesNumber (c :: rest) := by
  rintro c ⟨⟩
  exact other

/-- The value is split off any of its texts unless more of a number follows. -/
def ReadBack (value : Json) : Prop :=
  ∀ text rest fuel, WrittenAs value text → Spares continuesNumber rest → 2 * text.length ≤ fuel →
    valueWith fuel (text ++ rest) = some (value, rest)

def ItemsReadBack (items : List Json) : Prop :=
  ∀ pieces rest fuel, items ≠ [] → ItemsAs items pieces → 2 * (commas pieces).length + 1 ≤ fuel →
    itemsWith fuel (commas pieces ++ ']' :: rest) = some (items, rest)

def FieldsReadBack (fields : List (List Char × Json)) : Prop :=
  ∀ pieces rest fuel, fields ≠ [] → FieldsAs fields pieces → 2 * (commas pieces).length + 1 ≤ fuel →
    fieldsWith fuel (commas pieces ++ '}' :: rest) = some (fields, rest)

/-- Every value takes a character, so its fuel is not used up. -/
theorem WrittenAs.exists_succ (written : WrittenAs value text) (fits : 2 * text.length ≤ fuel) :
    ∃ fewer, fuel = fewer + 1 ∧ 2 * text.length ≤ fewer + 1 := by
  obtain ⟨c, more, rfl, -⟩ := written.begins
  rw [List.length_cons] at fits ⊢
  exact ⟨fuel - 1, by omega, by omega⟩

/-- With the blanks around it, a value is split off in front of a comma or a bracket. -/
theorem ReadBack.padded {piece : List Char} (back : ReadBack value)
    (padded : Padded (WrittenAs value) piece) (fits : 2 * piece.length ≤ fuel) (c : Char)
    (rest : List Char) (visible : isBlank c = false) (other : continuesNumber c = false) :
    ∃ left, valueWith fuel (piece ++ c :: rest) = some (value, left) ∧ skipBlanks left = c :: rest := by
  obtain ⟨before, body, after, leading, written, trailing, rfl⟩ := padded
  simp only [List.length_append] at fits
  refine ⟨after ++ c :: rest, ?_, by rw [skipBlanks_append trailing, skipBlanks_cons visible]⟩
  rw [List.append_assoc, List.append_assoc, valueWith_append leading]
  exact back body _ fuel written (trailing.spares (spares_cons other)) (by omega)

theorem itemsReadBack_cons (first : ReadBack item) (others : ItemsReadBack items) :
    ItemsReadBack (item :: items) := by
  rintro _ rest fuel - ⟨piece, pieces, writes, follow, rfl⟩ fits
  obtain ⟨fuel, rfl⟩ : ∃ fewer, fuel = fewer + 1 := ⟨fuel - 1, by omega⟩
  cases items with
  | nil =>
    cases follow
    rw [commas] at fits ⊢
    have enough : 2 * piece.length ≤ fuel := by omega
    obtain ⟨left, read, ends⟩ := first.padded writes enough ']' rest rfl rfl
    rw [itemsWith, read]
    simp [ends]
  | cons next more =>
    rw [commas_cons piece follow.ne_nil] at fits ⊢
    simp only [List.length_append, List.length_cons] at fits
    have enough : 2 * piece.length ≤ fuel := by omega
    obtain ⟨left, read, ends⟩ := first.padded writes enough ',' (commas pieces ++ ']' :: rest) rfl rfl
    have tail := others pieces rest fuel (by simp) follow (by omega)
    rw [List.append_assoc, List.cons_append, itemsWith, read]
    simp [ends, tail]

/-- A field is read up to what stands behind its value: a comma or the end of the object. -/
theorem fieldsWith_field {label content left : List Char} (closed : Closed name)
    (padded : Padded (· = '"' :: name ++ ['"']) label)
    (read : valueWith fuel content = some (value, left)) :
    (skipBlanks left = '}' :: rest →
      fieldsWith (fuel + 1) (label ++ ':' :: content) = some ([(name, value)], rest)) ∧
    (skipBlanks left = ',' :: rest →
      fieldsWith (fuel + 1) (label ++ ':' :: content) =
        (fieldsWith fuel rest).map fun (fields, rest) => ((name, value) :: fields, rest)) := by
  obtain ⟨before, _, after, leading, rfl, trailing, rfl⟩ := padded
  have quote : body? (name ++ '"' :: (after ++ ':' :: content)) = some (name, after ++ ':' :: content) :=
    body?_eq_some_iff.mpr ⟨closed, rfl⟩
  have colon : skipBlanks (after ++ ':' :: content) = ':' :: content := by
    rw [skipBlanks_append trailing, skipBlanks_cons rfl]
  constructor <;> intro ends <;>
    simp [fieldsWith, skipBlanks_append leading, skipBlanks_cons, isBlank, quote, colon, read, ends]

theorem fieldsReadBack_cons (first : ReadBack value) (others : FieldsReadBack fields) :
    FieldsReadBack ((name, value) :: fields) := by
  rintro _ rest fuel - ⟨_, pieces, ⟨label, content, closed, padded, writes, rfl⟩, follow, rfl⟩ fits
  obtain ⟨fuel, rfl⟩ : ∃ fewer, fuel = fewer + 1 := ⟨fuel - 1, by omega⟩
  cases fields with
  | nil =>
    cases follow
    simp only [commas, List.length_append, List.length_cons] at fits
    have enough : 2 * content.length ≤ fuel := by omega
    obtain ⟨left, read, ends⟩ := first.padded writes enough '}' rest rfl rfl
    rw [commas, List.append_assoc, List.cons_append]
    exact (fieldsWith_field closed padded read).1 ends
  | cons next more =>
    rw [commas_cons _ follow.ne_nil] at fits ⊢
    simp only [List.length_append, List.length_cons] at fits
    have enough : 2 * content.length ≤ fuel := by omega
    obtain ⟨left, read, ends⟩ := first.padded writes enough ',' (commas pieces ++ '}' :: rest) rfl rfl
    have tail := others pieces rest fuel (by simp) follow (by omega)
    rw [List.append_assoc, List.append_assoc, List.cons_append, List.cons_append,
      (fieldsWith_field closed padded read).2 ends, tail]
    rfl

theorem readBack_null : ReadBack null := by
  intro text rest fuel written _ fits
  obtain ⟨fuel, rfl, -⟩ := written.exists_succ fits
  cases written
  rw [valueWith]
  change (word? "ull".toList ("ull".toList ++ rest)).map (null, ·) = _
  rw [word?_append]
  rfl

theorem readBack_bool (b : Bool) : ReadBack (bool b) := by
  intro text rest fuel written _ fits
  obtain ⟨fuel, rfl, -⟩ := written.exists_succ fits
  cases b with
  | false =>
    cases written
    rw [valueWith]
    change (word? "alse".toList ("alse".toList ++ rest)).map (bool false, ·) = _
    rw [word?_append]
    rfl
  | true =>
    cases written
    rw [valueWith]
    change (word? "rue".toList ("rue".toList ++ rest)).map (bool true, ·) = _
    rw [word?_append]
    rfl

theorem readBack_number (literal : List Char) : ReadBack (number literal) := by
  intro text rest fuel written ends fits
  obtain ⟨fuel, rfl, -⟩ := written.exists_succ fits
  obtain ⟨isNumber, rfl⟩ := written
  exact valueWith_number isNumber ends

theorem readBack_string (body : List Char) : ReadBack (string body) := by
  intro text rest fuel written ends fits
  obtain ⟨fuel, rfl, -⟩ := written.exists_succ fits
  obtain ⟨closed, rfl⟩ := written
  have quote : body? (body ++ '"' :: rest) = some (body, rest) := body?_eq_some_iff.mpr ⟨closed, rfl⟩
  simp [valueWith, skipBlanks_cons, isBlank, quote]

theorem exists_commas (piece : List Char) (pieces : List (List Char)) :
    ∃ more, commas (piece :: pieces) = piece ++ more := by
  cases pieces with
  | nil => exact ⟨[], by simp [commas]⟩
  | cons next others => exact ⟨_, commas_cons piece (by simp)⟩

/-- The values of an array that is not empty do not begin with its closing bracket. -/
theorem ItemsAs.begins (writes : ItemsAs (item :: items) pieces) (tail : List Char) :
    ∃ c more, skipBlanks (commas pieces ++ tail) = c :: more ∧ c ≠ ']' := by
  obtain ⟨_, others, ⟨before, body, after, blank, written, -, rfl⟩, -, rfl⟩ := writes
  obtain ⟨c, more, rfl, visible, other⟩ := written.begins
  obtain ⟨further, all⟩ := exists_commas (before ++ (c :: more ++ after)) others
  refine ⟨c, more ++ (after ++ (further ++ tail)), ?_, other⟩
  rw [all, List.append_assoc, List.append_assoc, skipBlanks_append blank]
  simp [skipBlanks_cons visible]

/-- The fields of an object begin with the quote of a name. -/
theorem FieldsAs.begins (writes : FieldsAs ((name, value) :: fields) pieces) (tail : List Char) :
    ∃ more, skipBlanks (commas pieces ++ tail) = '"' :: more := by
  obtain ⟨_, others, ⟨_, content, -, ⟨before, _, after, blank, rfl, -, rfl⟩, -, rfl⟩, -, rfl⟩ := writes
  obtain ⟨further, all⟩ := exists_commas (before ++ ('"' :: name ++ ['"'] ++ after) ++ ':' :: content) others
  refine ⟨name ++ '"' :: (after ++ ':' :: (content ++ (further ++ tail))), ?_⟩
  rw [all]
  simp [skipBlanks_append blank, skipBlanks_cons, isBlank]

theorem readBack_array (back : ItemsReadBack items) : ReadBack (array items) := by
  intro text rest fuel written ends fits
  obtain ⟨fuel, rfl, enough⟩ := written.exists_succ fits
  obtain ⟨lead, pieces, blank, writes, rfl⟩ := written
  simp only [List.length_append, List.length_cons] at enough
  cases items with
  | nil =>
    cases writes
    simp [valueWith, skipBlanks_cons, isBlank, commas, skipBlanks_append blank]
  | cons item items =>
    obtain ⟨c, more, begins, other⟩ := writes.begins (']' :: rest)
    have read := back pieces rest fuel (by simp) writes (by omega)
    rw [← itemsWith_skipBlanks, begins] at read
    simp [valueWith, skipBlanks_cons, isBlank, skipBlanks_append blank, begins, other, read]

theorem readBack_object (back : FieldsReadBack fields) : ReadBack (object fields) := by
  intro text rest fuel written ends fits
  obtain ⟨fuel, rfl, enough⟩ := written.exists_succ fits
  obtain ⟨lead, pieces, blank, writes, rfl⟩ := written
  simp only [List.length_append, List.length_cons] at enough
  cases fields with
  | nil =>
    cases writes
    simp [valueWith, skipBlanks_cons, isBlank, commas, skipBlanks_append blank]
  | cons field fields =>
    obtain ⟨more, begins⟩ := writes.begins ('}' :: rest)
    have read := back pieces rest fuel (by simp) writes (by omega)
    rw [← fieldsWith_skipBlanks, begins] at read
    simp [valueWith, skipBlanks_cons, isBlank, skipBlanks_append blank, begins, read]

mutual

/-- A value is split off any of its texts, by recursion on the value. -/
theorem readBack : (value : Json) → ReadBack value
  | null => readBack_null
  | bool b => readBack_bool b
  | number literal => readBack_number literal
  | string body => readBack_string body
  | array items => readBack_array (itemsReadBack items)
  | object fields => readBack_object (fieldsReadBack fields)

theorem itemsReadBack : (items : List Json) → ItemsReadBack items
  | [] => fun _ _ _ some => absurd rfl some
  | item :: items => itemsReadBack_cons (readBack item) (itemsReadBack items)

theorem fieldsReadBack : (fields : List (List Char × Json)) → FieldsReadBack fields
  | [] => fun _ _ _ some => absurd rfl some
  | (_, value) :: fields => fieldsReadBack_cons (readBack value) (fieldsReadBack fields)

end

/-- A text is read as a value exactly if it writes it, with blanks around it. -/
theorem parse_eq_some_iff : parse text = some value ↔ Padded (WrittenAs value) text := by
  constructor
  · intro read
    unfold parse at read
    split at read
    case h_2 => cases read
    case h_1 value' rest found =>
      split at read
      · next ends =>
        cases read
        obtain ⟨before, body, blank, written, all⟩ := (readsRight _).value found
        exact ⟨before, body, rest, blank, written, skipBlanks_eq_nil.mp (List.isEmpty_iff.mp ends), all⟩
      · cases read
  · rintro ⟨before, body, after, leading, written, trailing, rfl⟩
    have none : Spares continuesNumber [] := nofun
    have ends : Spares continuesNumber after := by simpa using trailing.spares none
    have found := readBack value body after (2 * (before ++ (body ++ after)).length + 2) written ends
      (by simp only [List.length_append]; omega)
    rw [parse, valueWith_append leading, found]
    simp [skipBlanks_eq_nil.mpr trailing]

end HashLog.Json
