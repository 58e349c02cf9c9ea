/-!
Hexadecimal text. Bytes are written with two lower-case digits each; digits of either case are
read back. Reading asks for an exact number of bytes and says what is wrong with a text that does
not have the form: the first applicable of an odd length, a wrong length and a bad character.
-/
namespace HashLog.Hex

/-- The digit for a value below sixteen. -/
def digit (value : UInt8) : Char :=
  if value < 10 then Char.ofNat (48 + value.toNat) else Char.ofNat (87 + value.toNat)

/-- Two digits for every byte. -/
def chars (bytes : List UInt8) : List Char :=
  bytes.flatMap fun (byte : UInt8) => [digit (byte >>> 4), digit (byte &&& 15)]

/-- Bytes as lower-case hexadecimal text. -/
def encode (bytes : List UInt8) : String :=
  String.ofList (chars bytes)

/-- The value of a digit, given as the byte of its character. -/
def value? (byte : UInt8) : Option UInt8 :=
  if 48 ≤ byte ∧ byte ≤ 57 then some (byte - 48)
  else if 97 ≤ byte ∧ byte ≤ 102 then some (byte - 87)
  else if 65 ≤ byte ∧ byte ≤ 70 then some (byte - 55)
  else none

/-- What is wrong with a text that is not the digits of the bytes asked for. -/
inductive Fault where
  | oddLength
  | wrongLength
  | badCharacter (byte : UInt8) (index : Nat)
  deriving DecidableEq, Repr

/-- A byte shown as the character of that code, quoted; controls and blanks are escaped. -/
def quoted (byte : UInt8) : String :=
  let shown :=
    if byte = 0 then "\\0"
    else if byte = 9 then "\\t"
    else if byte = 10 then "\\n"
    else if byte = 13 then "\\r"
    else if byte = 39 then "\\'"
    else if byte = 92 then "\\\\"
    else if byte < 32 ∨ (127 ≤ byte ∧ byte ≤ 160) ∨ byte = 173 then
      "\\u\x7b" ++ String.ofList (Nat.toDigits 16 byte.toNat) ++ "\x7d"
    else String.singleton (Char.ofNat byte.toNat)
  "'" ++ shown ++ "'"

/-- The text of a fault. -/
def Fault.message : Fault → String
  | .oddLength => "Odd number of digits"
  | .wrongLength => "Invalid string length"
  | .badCharacter byte index =>
    "Invalid character " ++ quoted byte ++ " at position " ++ toString index

/-- Reads pairs of digits; `index` is the position of the first byte in the whole text. -/
def decodePairs (index : Nat) : List UInt8 → Except Fault (List UInt8)
  | high :: low :: rest =>
    match value? high, value? low with
    | none, _ => .error (.badCharacter high index)
    | some _, none => .error (.badCharacter low (index + 1))
    | some h, some l => (decodePairs (index + 2) rest).map ((h <<< 4 ||| l) :: ·)
  | _ => .ok []

/-- The `width` bytes that a text (given by its UTF-8 bytes) writes in digits. -/
def decode (width : Nat) (text : List UInt8) : Except Fault (List UInt8) :=
  if text.length % 2 ≠ 0 then .error .oddLength
  else if text.length / 2 ≠ width then .error .wrongLength
  else decodePairs 0 text

theorem length_decodePairs {index : Nat} {text bytes : List UInt8}
    (decoded : decodePairs index text = .ok bytes) : bytes.length = text.length / 2 := by
  fun_induction decodePairs index text generalizing bytes with
  | case1 => simp at decoded
  | case2 => simp at decoded
  | case3 index high low rest h l _ _ ih =>
    cases inner : decodePairs (index + 2) rest with
    | error fault => simp [inner, Except.map] at decoded
    | ok tail =>
      simp only [inner, Except.map, Except.ok.injEq] at decoded
      subst decoded
      simp only [List.length_cons, ih inner]
      omega
  | case4 text index short =>
    simp only [Except.ok.injEq] at decoded
    subst decoded
    match text, short with
    | [], _ => rfl
    | [_], _ => simp
    | a :: b :: rest, short => exact (short a b rest rfl).elim

theorem length_decode {width : Nat} {text bytes : List UInt8}
    (decoded : decode width text = .ok bytes) : bytes.length = width := by
  unfold decode at decoded
  split at decoded
  · simp at decoded
  · split at decoded
    · simp at decoded
    · next even => rw [length_decodePairs decoded]; omega

end HashLog.Hex
