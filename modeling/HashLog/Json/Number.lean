import HashLog.Json.Basic
import HashLog.Number.Binary64
/-!
What a JSON number stands for. A literal without a point and without a power of ten is a whole
number if it fits 64 bits, minus zero apart; everything else is a floating-point number.

A floating-point number is read in three steps. Digits are collected while they fit 64 bits; the
whole number they make is rounded; and the result is multiplied or divided by a rounded power of
ten. Literals of up to 15 digits with a power of up to 22 come out nearest, others may be a unit
off.
-/
namespace HashLog.Json

/-- A number as it is read. -/
inductive Number where
  | unsigned (value : Nat)
  /-- The negative number `-value`. -/
  | negative (value : Nat)
  | float (negative : Bool) (magnitude : Nat)

def digitValue (c : Char) : Nat := c.toNat - 48

/-- The parts of a literal. -/
structure Literal where
  negative : Bool
  whole : List Char
  fraction : List Char
  exponentNegative : Bool
  /-- The digits of the power of ten, if one is written. -/
  exponent : Option (List Char)

/-- Takes a literal apart. -/
def Literal.ofChars (literal : List Char) : Literal :=
  let negative := literal.head? == some '-'
  let text := if negative then literal.drop 1 else literal
  let rest := text.dropWhile Char.isDigit
  let fraction := if rest.head? == some '.' then (rest.drop 1).takeWhile Char.isDigit else []
  let rest := if rest.head? == some '.' then (rest.drop 1).dropWhile Char.isDigit else rest
  let power := rest.drop 1
  let signed := power.head? == some '-' || power.head? == some '+'
  { negative
    whole := text.takeWhile Char.isDigit
    fraction
    exponentNegative := power.head? == some '-'
    exponent := if rest.isEmpty then none else some (if signed then power.drop 1 else power) }

/-- The largest number that digits are collected into. -/
def maxCollected : Nat := UInt64.size - 1

/-- Collects digits while they fit; returns what was collected and the digits left over. -/
def collect (value : Nat) : List Char → Nat × List Char
  | [] => (value, [])
  | c :: rest =>
    let next := value * 10 + digitValue c
    if next > maxCollected then (value, c :: rest) else collect next rest

/-- A power of ten rounded. -/
def powerOfTen (n : Nat) : Nat := Binary64.ofRatio (Nat.pow 10 n) 1

/-- Scales a magnitude by a power of ten, in steps of at most 308; none if it grows too large. The
fuel is the number of steps. -/
def scale : (fuel : Nat) → (magnitude : Nat) → (exponent : Int) → Option Nat
  | fuel, magnitude, exponent =>
    if exponent.natAbs ≤ 308 then
      if 0 ≤ exponent then
        let scaled := Binary64.mul magnitude (powerOfTen exponent.toNat)
        if scaled < Binary64.infinity then some scaled else none
      else some (Binary64.div magnitude (powerOfTen (-exponent).toNat))
    else if magnitude = 0 then some 0
    else if 0 ≤ exponent then none
    else
      match fuel with
      | 0 => some 0
      | fuel + 1 => scale fuel (Binary64.div magnitude (powerOfTen 308)) (exponent + 308)

/-- The largest power of ten that is counted. -/
def maxExponent : Nat := 1 <<< 31 - 1

/-- The magnitude of a literal that is read as a floating-point number; none if it is too large. -/
def Literal.magnitude? (l : Literal) : Option Nat :=
  let (value, dropped) := collect 0 l.whole
  let (value, rest) := collect value l.fraction
  let places : Int := (dropped.length : Int) - (l.fraction.length - rest.length : Nat)
  match l.exponent with
  | none => scale 4 (Binary64.ofRatio value 1) places
  | some power =>
    let (exponent, overflow) := power.foldl
      (fun (sum, overflow) c =>
        let next := sum * 10 + digitValue c
        if overflow || next > maxExponent then (sum, true) else (next, false))
      (0, false)
    if overflow then if value ≠ 0 && !l.exponentNegative then none else some 0
    else
      let exponent : Int := if l.exponentNegative then -exponent else exponent
      let most : Int := maxExponent
      let total := max (-most - 1) (min (places + exponent) most)
      scale 4 (Binary64.ofRatio value 1) total

/-- The number that a literal stands for; none if it is too large. -/
def Number.ofLiteral? (literal : List Char) : Option Number :=
  let l := Literal.ofChars literal
  let float := l.magnitude?.map (Number.float l.negative)
  if l.fraction.isEmpty && l.exponent.isNone then
    let value := l.whole.foldl (fun sum c => sum * 10 + digitValue c) 0
    if l.negative then
      if value = 0 || value > 1 <<< 63 then float else some (.negative value)
    else if value ≤ maxCollected then some (.unsigned value)
    else float
  else float

/-- The bits of the floating-point number nearest to a number. -/
def Number.toFloatBits : Number → UInt64
  | .unsigned value => UInt64.ofNat (Binary64.ofRatio value 1)
  | .negative value => UInt64.ofNat (1 <<< 63 + Binary64.ofRatio value 1)
  | .float minus magnitude => UInt64.ofNat ((if minus then 1 <<< 63 else 0) + magnitude)

/-! ## Writing -/

/-- The decimal digits of a number. -/
def natChars (n : Nat) : List Char := Nat.toDigits 10 n

def ofNat (n : Nat) : Json := number (natChars n)

def ofInt (n : Int) : Json :=
  if 0 ≤ n then ofNat n.toNat else number ('-' :: natChars (-n).toNat)

/-- A decimal written out: plainly while its point lies within sixteen digits or up to four zeros
follow it, otherwise with a power of ten, which always has its sign. -/
def decimalChars (x : Binary64.Decimal) : List Char :=
  let digits := natChars x.digits
  let count : Int := digits.length
  let point := count + x.exponent
  let zeros (n : Int) : List Char := List.replicate n.toNat '0'
  if 0 ≤ x.exponent ∧ point ≤ 16 then digits ++ zeros x.exponent ++ ['.', '0']
  else if 0 < point ∧ point ≤ 16 then
    digits.take point.toNat ++ '.' :: digits.drop point.toNat
  else if -5 < point ∧ point ≤ 0 then '0' :: '.' :: zeros (-point) ++ digits
  else
    let power := point - 1
    let exponent := (if power < 0 then '-' else '+') :: natChars power.natAbs
    match digits with
    | [only] => only :: 'e' :: exponent
    | first :: more => first :: '.' :: more ++ 'e' :: exponent
    | [] => []

/-- A floating-point number in its shortest decimal form; null if it is not finite. -/
def ofFloat (bits : UInt64) : Json :=
  let magnitude := bits.toNat % 1 <<< 63
  if magnitude ≥ Binary64.infinity then null
  else
    let sign := if bits.toNat ≥ 1 <<< 63 then ['-'] else []
    if magnitude = 0 then number (sign ++ "0.0".toList)
    else number (sign ++ decimalChars (Binary64.shortest magnitude))

end HashLog.Json
