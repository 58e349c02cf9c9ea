/-!
64-bit binary floating-point numbers by their bits: the exact value of a finite one, the nearest
one to a ratio, and the shortest decimal that reads back as the same number. Signs are kept apart,
so all of this is about magnitudes.
-/
namespace HashLog.Binary64

/-- The bits of infinity. -/
def infinity : Nat := 2047 <<< 52

/-- The number `significand * 2 ^ exponent`. -/
structure Scaled where
  significand : Nat
  exponent : Int

/-- The exact value of a finite magnitude. -/
def value (bits : Nat) : Scaled :=
  let fraction := bits % 1 <<< 52
  let field : Nat := (bits >>> 52) % 2048
  if field = 0 then ⟨fraction, -1074⟩ else ⟨1 <<< 52 + fraction, (field : Int) - 1075⟩

/-- A scaled number as a ratio. -/
def Scaled.ratio (s : Scaled) : Nat × Nat :=
  if 0 ≤ s.exponent then (s.significand <<< s.exponent.toNat, 1)
  else (s.significand, 1 <<< (-s.exponent).toNat)

/-- The quotient of two numbers rounded to the nearest whole number, a half to the even one. -/
def divRound (num den : Nat) : Nat :=
  let q := num / den
  let r := num % den
  if 2 * r < den then q
  else if den < 2 * r then q + 1
  else if q % 2 = 0 then q else q + 1

/-- The bits of the number nearest to a ratio, ties to the even significand; infinity if the ratio
is too large. -/
def ofRatio (num den : Nat) : Nat :=
  if num = 0 then 0
  else
    let scale (e : Int) : Nat × Nat :=
      if 0 ≤ e then (num, den <<< e.toNat) else (num <<< (-e).toNat, den)
    let guess : Int := (num.log2 : Int) - den.log2 - 52
    let (n, d) := scale guess
    let exponent := max (if n < d <<< 52 then guess - 1 else guess) (-1074)
    let (n, d) := scale exponent
    min ((exponent + 1074).toNat <<< 52 + divRound n d) infinity

/-- The product of two finite magnitudes. -/
def mul (a b : Nat) : Nat :=
  let (n, d) := (value a).ratio
  let (n', d') := (value b).ratio
  ofRatio (n * n') (d * d')

/-- The quotient of two finite magnitudes, the second one not zero. -/
def div (a b : Nat) : Nat :=
  let (n, d) := (value a).ratio
  let (n', d') := (value b).ratio
  ofRatio (n * d') (d * n')

/-- The number `digits * 10 ^ exponent`. -/
structure Decimal where
  digits : Nat
  exponent : Int

/-- The decimal as a ratio. -/
def Decimal.ratio (x : Decimal) : Nat × Nat :=
  if 0 ≤ x.exponent then (x.digits * Nat.pow 10 x.exponent.toNat, 1)
  else (x.digits, Nat.pow 10 (-x.exponent).toNat)

/-- True if a decimal reads back as this number. -/
def readsBack (bits : Nat) (x : Decimal) : Bool := ofRatio x.ratio.1 x.ratio.2 == bits

/-- The exponent `k` with `10 ^ k ≤ num / den < 10 ^ (k + 1)`, for a ratio that is not zero. -/
def decimalExponent (num den : Nat) : Int :=
  let reaches (k : Int) : Bool :=
    if 0 ≤ k then den * Nat.pow 10 k.toNat ≤ num else den ≤ num * Nat.pow 10 (-k).toNat
  let low : Int := ((num.log2 : Int) - den.log2 - 1) * 1233 / 4096 - 1
  if reaches (low + 3) then low + 3
  else if reaches (low + 2) then low + 2
  else if reaches (low + 1) then low + 1
  else low

/-- Of the two decimals with `count` digits on either side of a number, the nearer one that reads
back, if any. -/
def roundTo? (bits count : Nat) : Option Decimal :=
  let (num, den) := (value bits).ratio
  let exponent := decimalExponent num den - ((count : Int) - 1)
  let (n, d) :=
    if 0 ≤ exponent then (num, den * Nat.pow 10 exponent.toNat)
    else (num * Nat.pow 10 (-exponent).toNat, den)
  let nearest := divRound n d
  let other := if nearest = n / d then nearest + 1 else nearest - 1
  if readsBack bits ⟨nearest, exponent⟩ then some ⟨nearest, exponent⟩
  else if readsBack bits ⟨other, exponent⟩ then some ⟨other, exponent⟩
  else none

/-- Removes zeros at the end of the digits. -/
def Decimal.trim : (fuel : Nat) → Decimal → Decimal
  | 0, x => x
  | fuel + 1, x =>
    if x.digits ≠ 0 ∧ x.digits % 10 = 0 then trim fuel ⟨x.digits / 10, x.exponent + 1⟩ else x

/-- The shortest decimal that reads back as a finite magnitude other than zero. Seventeen digits
always do. -/
def shortest (bits : Nat) : Decimal :=
  let found := (List.range 17).findSome? fun i => roundTo? bits (i + 1)
  (found.getD ⟨0, 0⟩).trim 18

end HashLog.Binary64
