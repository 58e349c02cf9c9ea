import Mathlib.Tactic.SplitIfs
import HashLog.Json.Text
/-!
Strings in JSON texts. Between its quotes stands a body in which every quote and every backslash belongs to
an escape (`Closed`), so a string ends at the first quote that does not (`body?_eq_some_iff`). A text that is
written as a body is closed and is read back as it was, whatever its characters are (`bodyText?_escape`).
-/
namespace HashLog.Json

variable {text body rest : List Char} {c : Char}

/-- True of what may stand between two quotes: every quote and every backslash is part of an escape. -/
def Closed : List Char → Prop
  | [] => True
  | '\\' :: _ :: rest => Closed rest
  | c :: rest => c ≠ '"' ∧ c ≠ '\\' ∧ Closed rest

theorem closed_cons (quote : c ≠ '"') (slash : c ≠ '\\') : Closed (c :: rest) ↔ Closed rest := by
  rw [Closed]
  · simp [quote, slash]
  · simp [slash]

theorem body?_cons (quote : c ≠ '"') (slash : c ≠ '\\') :
    body? (c :: rest) = (body? rest).map fun (body, rest) => (c :: body, rest) := by
  rw [body?]
  · exact quote
  · simp [slash]

/-- The body of a string is what stands in front of the first quote that is not escaped. -/
theorem body?_eq_some_iff : body? text = some (body, rest) ↔ Closed body ∧ text = body ++ '"' :: rest := by
  constructor
  · intro read
    fun_induction body? text generalizing body with
    | case1 => simp_all [Closed]
    | case2 c text ih =>
      obtain ⟨⟨body, _⟩, inner, same⟩ := Option.map_eq_some_iff.mp read
      cases same
      obtain ⟨closed, rfl⟩ := ih inner
      exact ⟨closed, rfl⟩
    | case3 c text quote slash ih =>
      obtain ⟨⟨body, _⟩, inner, same⟩ := Option.map_eq_some_iff.mp read
      cases same
      obtain ⟨closed, rfl⟩ := ih inner
      have plain : c ≠ '\\' := by
        rintro rfl
        cases body <;> exact slash _ _ rfl rfl
      exact ⟨(closed_cons quote plain).mpr closed, rfl⟩
    | case4 => cases read
  · rintro ⟨closed, rfl⟩
    fun_induction Closed body with
    | case1 => rfl
    | case2 c body ih => simp [body?, ih closed]
    | case3 c body _ ih =>
      obtain ⟨quote, slash, closed⟩ := closed
      simp [body?_cons quote slash, ih closed]

/-! ## Written texts -/

theorem pieces?_short {e : Char} (short : shortEscape? e = some c) (unit : e ≠ 'u') :
    pieces? ('\\' :: e :: rest) = (pieces? rest).map (.short c :: ·) := by
  rw [pieces?]
  · cases pieces? rest <;> simp [short]
  · simp [unit]

theorem pieces?_plain (slash : c ≠ '\\') :
    pieces? (c :: rest) = (pieces? rest).map (.plain c :: ·) := by
  rw [pieces?]
  · cases pieces? rest <;> rfl
  · simp [slash]
  · simp [slash]

theorem hexValue?_hexChar {n : Nat} (small : n < 16) : hexValue? (hexChar n) = some n := by
  decide +revert

theorem pieces?_unit (small : c.toNat < 256) :
    pieces? ('\\' :: 'u' :: '0' :: '0' :: hexChar (c.toNat / 16) :: hexChar (c.toNat % 16) :: rest) =
      (pieces? rest).map (.unit c.toNat :: ·) := by
  have zero : hexValue? '0' = some 0 := by decide
  have joined : 16 * (c.toNat / 16) + c.toNat % 16 = c.toNat := by omega
  rw [pieces?, hexValue?_hexChar (by omega), hexValue?_hexChar (Nat.mod_lt _ (by decide)), zero]
  cases pieces? rest <;> simp [joined]

/-- A character is written with a short escape, by its number if it is another control character, or as it
is. -/
theorem escapeChar_cases (c : Char) :
    (∃ e, shortEscape? e = some c ∧ e ≠ 'u' ∧ escapeChar c = ['\\', e]) ∨
    (c.toNat < 0x20 ∧
      escapeChar c = ['\\', 'u', '0', '0', hexChar (c.toNat / 16), hexChar (c.toNat % 16)]) ∨
    (c ≠ '"' ∧ c ≠ '\\' ∧ isControl c = false ∧ escapeChar c = [c]) := by
  unfold escapeChar
  split_ifs with quote slash backspace feed line carriage tab control
  · exact .inl ⟨'"', by rw [quote]; rfl, by decide, rfl⟩
  · exact .inl ⟨'\\', by rw [slash]; rfl, by decide, rfl⟩
  · exact .inl ⟨'b', by rw [backspace]; rfl, by decide, rfl⟩
  · exact .inl ⟨'f', by rw [feed]; rfl, by decide, rfl⟩
  · exact .inl ⟨'n', by rw [line]; rfl, by decide, rfl⟩
  · exact .inl ⟨'r', by rw [carriage]; rfl, by decide, rfl⟩
  · exact .inl ⟨'t', by rw [tab]; rfl, by decide, rfl⟩
  · exact .inr (.inl ⟨by simpa [isControl] using control, rfl⟩)
  · exact .inr (.inr ⟨quote, slash, by simpa using control, rfl⟩)

/-- A written character is read back, whatever follows. -/
theorem bodyText?_escapeChar (c : Char) (rest : List Char) :
    bodyText? (escapeChar c ++ rest) = (bodyText? rest).map (c :: ·) := by
  suffices reads : ∃ piece, pieces? (escapeChar c ++ rest) = (pieces? rest).map (piece :: ·) ∧
      ∀ others, textOf? (piece :: others) = (textOf? others).map (c :: ·) by
    obtain ⟨piece, split, reads⟩ := reads
    rw [bodyText?, bodyText?, split]
    cases pieces? rest with
    | none => rfl
    | some others => exact reads others
  rcases escapeChar_cases c with ⟨e, short, unit, written⟩ | ⟨control, written⟩ | ⟨_, slash, plain, written⟩
  · exact ⟨.short c, by rw [written]; exact pieces?_short short unit, fun others => rfl⟩
  · refine ⟨.unit c.toNat, by rw [written]; exact pieces?_unit (by omega), fun others => ?_⟩
    have trailing : isTrailing c.toNat = false := by simp [isTrailing]; omega
    have leading : isLeading c.toNat = false := by simp [isLeading]; omega
    rw [textOf?.eq_def]
    simp [trailing, leading, Char.ofNat_toNat]
  · exact ⟨.plain c, by rw [written]; exact pieces?_plain slash, fun others => by simp [textOf?, plain]⟩

/-- A text that is written as the body of a string is read back. -/
theorem bodyText?_escape (text : List Char) : bodyText? (text.flatMap escapeChar) = some text := by
  induction text with
  | nil => rfl
  | cons c text ih => rw [List.flatMap_cons, bodyText?_escapeChar, ih, Option.map_some]

theorem closed_escape (text : List Char) : Closed (text.flatMap escapeChar) := by
  induction text with
  | nil => trivial
  | cons c text ih =>
    rw [List.flatMap_cons]
    rcases escapeChar_cases c with ⟨e, _, _, written⟩ | ⟨_, written⟩ | ⟨quote, slash, _, written⟩
    · rw [written]
      exact ih
    · have digit (n : Nat) (small : n < 16) : hexChar n ≠ '"' ∧ hexChar n ≠ '\\' := by decide +revert
      have high := digit (c.toNat / 16) (by omega)
      have low := digit (c.toNat % 16) (Nat.mod_lt _ (by decide))
      rw [written]
      change Closed ('0' :: '0' :: _ :: _ :: _)
      rw [closed_cons (by decide) (by decide), closed_cons (by decide) (by decide),
        closed_cons high.1 high.2, closed_cons low.1 low.2]
      exact ih
    · rw [written]
      exact (closed_cons quote slash).mpr ih

end HashLog.Json
