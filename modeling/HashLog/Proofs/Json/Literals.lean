import Mathlib.Data.List.TakeWhile
import HashLog.Json.Number
/-!
Numbers in JSON texts. `IsNumber` is their grammar: a sign, a whole number without zeros in front, a fraction
and a power of ten, the last two only where they are wanted. The reader splits off a number of the grammar
(`isNumber_of_number?`), and any number of the grammar unless more of one follows (`number?_append`). The
digits of a whole number below `2 ^ 64` are read back as that number (`ofLiteral?_natChars`).
-/
namespace HashLog.Json

/-! ## The grammar -/

/-- One digit or more. -/
def IsDigits (text : List Char) : Prop := text ≠ [] ∧ ∀ c ∈ text, c.isDigit = true

inductive IsWhole : List Char → Prop where
  | zero : IsWhole ['0']
  | digits {text : List Char} (found : IsDigits text) (first : text.head? ≠ some '0') : IsWhole text

inductive IsFraction : List Char → Prop where
  | none : IsFraction []
  | point {text : List Char} (found : IsDigits text) : IsFraction ('.' :: text)

inductive IsExponent : List Char → Prop where
  | none : IsExponent []
  | plain {e : Char} {text : List Char} (mark : e = 'e' ∨ e = 'E') (found : IsDigits text) :
    IsExponent (e :: text)
  | signed {e s : Char} {text : List Char} (mark : e = 'e' ∨ e = 'E') (sign : s = '+' ∨ s = '-')
    (found : IsDigits text) : IsExponent (e :: s :: text)

/-- The number literals. -/
def IsNumber (literal : List Char) : Prop :=
  ∃ sign whole fraction exponent, (sign = [] ∨ sign = ['-']) ∧ IsWhole whole ∧ IsFraction fraction ∧
    IsExponent exponent ∧ literal = sign ++ (whole ++ (fraction ++ exponent))

variable {text found rest literal : List Char} {c : Char} {n : Nat}

/-- True of a text that does not begin with a character of this kind. -/
def Spares (kind : Char → Bool) (rest : List Char) : Prop := ∀ c ∈ rest.head?, kind c = false

/-- The characters that a whole number or a fraction may go on with. -/
def continuesDecimal (c : Char) : Bool := c.isDigit || c == '.'

/-- The characters that a number may go on with. -/
def continuesNumber (c : Char) : Bool := continuesDecimal c || c == 'e' || c == 'E'

theorem Spares.isDigit (ends : Spares continuesDecimal rest) : Spares Char.isDigit rest := by
  intro c first
  have other := ends c first
  simp only [continuesDecimal, Bool.or_eq_false_iff] at other
  exact other.1

theorem Spares.decimal (ends : Spares continuesNumber rest) : Spares continuesDecimal rest := by
  intro c first
  have other := ends c first
  simp only [continuesNumber, Bool.or_eq_false_iff] at other
  exact other.1.1

/-! ## Reading -/

theorem isDigits_of_digits? (read : digits? text = some (found, rest)) :
    IsDigits found ∧ text = found ++ rest := by
  unfold digits? at read
  split at read
  · cases read
  · next taken =>
    cases read
    exact ⟨⟨taken, fun c member => List.mem_takeWhile_imp member⟩, List.takeWhile_append_dropWhile.symm⟩

theorem digits?_append (digits : IsDigits found) (ends : Spares Char.isDigit rest) :
    digits? (found ++ rest) = some (found, rest) := by
  have none : rest.takeWhile Char.isDigit = [] ∧ rest.dropWhile Char.isDigit = rest := by
    cases rest with
    | nil => exact ⟨rfl, rfl⟩
    | cons c rest => simp [ends c rfl]
  have taken : (found ++ rest).takeWhile Char.isDigit = found := by
    rw [List.takeWhile_append_of_pos digits.2, none.1, List.append_nil]
  have left : (found ++ rest).dropWhile Char.isDigit = rest := by
    rw [List.dropWhile_append_of_pos digits.2, none.2]
  unfold digits?
  rw [taken, left]
  split
  · exact absurd rfl digits.1
  · rfl

theorem isWhole_of_whole? (read : whole? text = some (found, rest)) :
    IsWhole found ∧ text = found ++ rest := by
  fun_cases whole? text with
  | case1 c text digit => simp [whole?, digit] at read
  | case2 c text digit =>
    obtain ⟨rfl, rfl⟩ : ['0'] = found ∧ c :: text = rest := by simpa [whole?, digit] using read
    exact ⟨.zero, rfl⟩
  | case3 =>
    obtain ⟨rfl, rfl⟩ : ['0'] = found ∧ [] = rest := by simpa [whole?] using read
    exact ⟨.zero, rfl⟩
  | case4 _ other =>
    rw [whole?] at read
    · obtain ⟨digits, rfl⟩ := isDigits_of_digits? read
      refine ⟨.digits digits fun first => ?_, rfl⟩
      obtain ⟨found, rfl⟩ := List.head?_eq_some_iff.mp first
      exact other _ rfl
    · exact other

theorem whole?_append (whole : IsWhole found) (ends : Spares Char.isDigit rest) :
    whole? (found ++ rest) = some (found, rest) := by
  cases whole with
  | zero =>
    cases rest with
    | nil => rfl
    | cons c rest => simp [whole?, ends c rfl]
  | digits digits first =>
    rw [whole?]
    · exact digits?_append digits ends
    · rintro more begins
      obtain ⟨c, tail, rfl⟩ := List.exists_cons_of_ne_nil digits.1
      cases begins
      exact first rfl

theorem isFraction_of_fraction? (read : fraction? text = some (found, rest)) :
    IsFraction found ∧ text = found ++ rest := by
  fun_cases fraction? text with
  | case1 text =>
    obtain ⟨⟨digits, _⟩, inner, same⟩ := Option.map_eq_some_iff.mp read
    cases same
    obtain ⟨digits, rfl⟩ := isDigits_of_digits? inner
    exact ⟨.point digits, rfl⟩
  | case2 _ other =>
    rw [fraction?] at read
    · cases read
      exact ⟨.none, rfl⟩
    · exact other

theorem fraction?_append (fraction : IsFraction found) (ends : Spares continuesDecimal rest) :
    fraction? (found ++ rest) = some (found, rest) := by
  cases fraction with
  | none =>
    rw [List.nil_append, fraction?]
    rintro more rfl
    cases ends '.' rfl
  | point digits => simp [fraction?, digits?_append digits ends.isDigit]

theorem isExponent_of_exponent? (read : exponent? text = some (found, rest)) :
    IsExponent found ∧ text = found ++ rest := by
  fun_cases exponent? text with
  | case1 e mark s text sign =>
    rw [exponent?, if_pos mark] at read
    simp only [sign, if_true] at read
    obtain ⟨⟨digits, _⟩, inner, same⟩ := Option.map_eq_some_iff.mp read
    cases same
    obtain ⟨digits, rfl⟩ := isDigits_of_digits? inner
    exact ⟨.signed (by simpa using mark) (by simpa using sign) digits, rfl⟩
  | case2 e mark s text sign =>
    rw [exponent?, if_pos mark] at read
    simp only [sign, if_false, Bool.false_eq_true] at read
    obtain ⟨⟨digits, _⟩, inner, same⟩ := Option.map_eq_some_iff.mp read
    cases same
    obtain ⟨digits, all⟩ := isDigits_of_digits? inner
    exact ⟨.plain (by simpa using mark) digits, by rw [all]; rfl⟩
  | case3 e mark => simp [exponent?, mark] at read
  | case4 c text other =>
    obtain ⟨rfl, rfl⟩ : [] = found ∧ c :: text = rest := by simpa [exponent?, other] using read
    exact ⟨.none, rfl⟩
  | case5 =>
    cases read
    exact ⟨.none, rfl⟩

theorem exponent?_append (exponent : IsExponent found) (ends : Spares continuesNumber rest) :
    exponent? (found ++ rest) = some (found, rest) := by
  cases exponent with
  | none =>
    cases rest with
    | nil => rfl
    | cons c rest =>
      have other := ends c rfl
      simp only [continuesNumber, Bool.or_eq_false_iff, beq_eq_false_iff_ne] at other
      simp [exponent?, other]
  | plain mark digits =>
    obtain ⟨c, more, rfl⟩ := List.exists_cons_of_ne_nil digits.1
    have digit := digits.2 c List.mem_cons_self
    have sign : c ≠ '+' ∧ c ≠ '-' := by
      constructor <;> rintro rfl <;> simp at digit
    have read := digits?_append digits ends.decimal.isDigit
    rw [List.cons_append] at read
    simp [exponent?, mark, sign, read]
  | signed mark sign digits => simp [exponent?, mark, sign, digits?_append digits ends.decimal.isDigit]

/-- What the reader splits off is a number. -/
theorem isNumber_of_number? (read : number? text = some (literal, rest)) :
    IsNumber literal ∧ text = literal ++ rest := by
  unfold number? at read
  split at read
  next sign body signed =>
  have front : (sign = [] ∨ sign = ['-']) ∧ text = sign ++ body := by
    split at signed <;> cases signed <;> simp
  simp only [Option.bind_eq_bind, Option.bind_eq_some_iff, Prod.exists, Option.pure_def,
    Option.some.injEq, Prod.mk.injEq] at read
  obtain ⟨whole, _, first, fraction, _, second, exponent, _, third, rfl, rfl⟩ := read
  obtain ⟨isWhole, rfl⟩ := isWhole_of_whole? first
  obtain ⟨isFraction, rfl⟩ := isFraction_of_fraction? second
  obtain ⟨isExponent, rfl⟩ := isExponent_of_exponent? third
  exact ⟨⟨sign, whole, fraction, exponent, front.1, isWhole, isFraction, isExponent, by simp⟩,
    by simp [front.2]⟩

theorem IsWhole.begins (whole : IsWhole text) : ∃ c more, text = c :: more ∧ c.isDigit = true := by
  cases whole with
  | zero => exact ⟨'0', [], rfl, rfl⟩
  | digits found first =>
    obtain ⟨c, more, rfl⟩ := List.exists_cons_of_ne_nil found.1
    exact ⟨c, more, rfl, found.2 c List.mem_cons_self⟩

theorem IsFraction.spares (fraction : IsFraction found) (ends : Spares continuesDecimal rest) :
    Spares Char.isDigit (found ++ rest) := by
  cases fraction with
  | none => exact ends.isDigit
  | point digits =>
    rintro c ⟨⟩
    rfl

theorem IsExponent.spares (exponent : IsExponent found) (ends : Spares continuesNumber rest) :
    Spares continuesDecimal (found ++ rest) := by
  cases exponent with
  | none => exact ends.decimal
  | plain mark | signed mark =>
    rintro c ⟨⟩
    rcases mark with rfl | rfl <;> rfl

/-- A number is split off unless more of one follows. -/
theorem number?_append (number : IsNumber literal) (ends : Spares continuesNumber rest) :
    number? (literal ++ rest) = some (literal, rest) := by
  obtain ⟨sign, whole, fraction, exponent, signed, isWhole, isFraction, isExponent, rfl⟩ := number
  have third := exponent?_append isExponent ends
  have second := fraction?_append isFraction (isExponent.spares ends)
  have first := whole?_append isWhole (isFraction.spares (isExponent.spares ends))
  rcases signed with rfl | rfl
  · obtain ⟨c, more, begins, digit⟩ := isWhole.begins
    have unsigned : c ≠ '-' := by
      rintro rfl
      cases digit
    subst begins
    rw [List.cons_append] at first
    simp [number?, unsigned, first, second, third]
  · simp [number?, first, second, third]

/-! ## Whole numbers -/

theorem isDigits_natChars (n : Nat) : IsDigits (natChars n) :=
  ⟨Nat.toDigits_ne_nil, fun _ member => Nat.isDigit_of_mem_toDigits (by decide) (by decide) member⟩

/-- Only zero is written with a zero in front. -/
theorem head?_natChars (positive : 0 < n) : (natChars n).head? ≠ some '0' := by
  induction n using Nat.strongRecOn with
  | ind n ih =>
    rw [natChars, Nat.toDigits_eq_if (by decide)]
    split
    · next small =>
      have digit : ∀ d : Fin 10, 0 < d.val → d.val.digitChar ≠ '0' := by decide
      simpa using digit ⟨n, small⟩ positive
    · next large =>
      have shorter := ih (n / 10) (by omega) (by omega)
      obtain ⟨c, more, begins⟩ := List.exists_cons_of_ne_nil (Nat.toDigits_ne_nil (b := 10) (n := n / 10))
      rw [natChars, begins] at shorter
      rw [begins]
      exact shorter

theorem isWhole_natChars (n : Nat) : IsWhole (natChars n) := by
  rcases Nat.eq_zero_or_pos n with rfl | positive
  · exact .zero
  · exact .digits (isDigits_natChars n) (head?_natChars positive)

theorem isNumber_natChars (n : Nat) : IsNumber (natChars n) :=
  ⟨[], natChars n, [], [], .inl rfl, isWhole_natChars n, .none, .none, by simp⟩

/-- A literal of digits alone has no other part. -/
theorem Literal.ofChars_digits (digits : IsDigits text) :
    Literal.ofChars text = ⟨false, text, [], false, none⟩ := by
  have unsigned : text.head? ≠ some '-' := by
    intro first
    obtain ⟨more, rfl⟩ := List.head?_eq_some_iff.mp first
    cases digits.2 '-' List.mem_cons_self
  have none : text.dropWhile Char.isDigit = [] := List.dropWhile_eq_nil_iff.mpr digits.2
  have all : text.takeWhile Char.isDigit = text := List.takeWhile_eq_self_iff.mpr digits.2
  simp [Literal.ofChars, unsigned, none, all]

/-- The digits of a whole number that fits 64 bits stand for this number. -/
theorem ofLiteral?_natChars (fits : n < UInt64.size) :
    Number.ofLiteral? (natChars n) = some (.unsigned n) := by
  have value : (natChars n).foldl (fun sum c => sum * 10 + digitValue c) 0 = n := by
    have digits := Nat.ofDigitChars_ten_toDigits (n := n)
    rw [Nat.ofDigitChars_eq_foldl] at digits
    simpa [Nat.mul_comm, natChars, digitValue] using digits
  have small : n ≤ maxCollected := Nat.le_sub_one_of_lt fits
  simp [Number.ofLiteral?, Literal.ofChars_digits (isDigits_natChars n), value, small]

end HashLog.Json
