/-!
The curve `-x² + y² = 1 + d x² y²` over the integers modulo `2 ^ 255 - 19`, with the group law in
extended coordinates and the 32-byte form of a point: `y` in the low 255 bits and the lowest bit of
`x` above them.
-/
namespace HashLog.Edwards

/-- The characteristic of the field. -/
def modulus : Nat := 1 <<< 255 - 19

/-- The order of the base point. -/
def order : Nat := 1 <<< 252 + 27742317777372353535851937790883648493

/-! ## The field -/

def add (a b : Nat) : Nat := (a + b) % modulus

def sub (a b : Nat) : Nat := (a + modulus - b) % modulus

def mul (a b : Nat) : Nat := a * b % modulus

/-- Powers by repeated squaring; the first argument bounds the bits of the exponent. -/
def powBits : Nat → (base exponent : Nat) → Nat
  | 0, _, _ => 1
  | bits + 1, base, exponent =>
    let rest := powBits bits (mul base base) (exponent / 2)
    if exponent % 2 = 1 then mul base rest else rest

def pow (base exponent : Nat) : Nat := powBits 256 base exponent

def inverse (a : Nat) : Nat := pow a (modulus - 2)

/-- The constant `d` of the curve equation. -/
def curveConstant : Nat :=
  37095705934669439343138083508754565189542113879843219016388785533085940283555

/-- A square root of minus one. -/
def rootOfMinusOne : Nat :=
  19681161376707505956807079304988542015446066515923890162744021073123829784752

/-- An even square root of `u / v`, if there is one. -/
def sqrtRatio (u v : Nat) : Option Nat :=
  let v3 := mul (mul v v) v
  let v7 := mul (mul v3 v3) v
  let root := mul (mul u v3) (pow (mul u v7) ((modulus - 5) / 8))
  let check := mul v (mul root root)
  let even (r : Nat) := if r % 2 = 0 then r else sub 0 r
  if check = u % modulus then some (even root)
  else if check = sub 0 (u % modulus) then some (even (mul root rootOfMinusOne))
  else none

/-! ## Points -/

/-- The point `(x / z, y / z)`, with `t = x y / z`. -/
structure Point where
  (x y z t : Nat)
  deriving DecidableEq

namespace Point

def zero : Point := ⟨0, 1, 1, 0⟩

/-- The generator of the prime-order group. -/
def base : Point :=
  let x := 15112221349535400772501151409588531511454012693041857206046113283949847762202
  let y := 46316835694926478169428394003475163141307993866256225615783033603165251855960
  ⟨x, y, 1, Edwards.mul x y⟩

/-- The group law; it holds for all pairs of points, equal ones too. -/
protected def add (p q : Point) : Point :=
  let a := Edwards.mul (sub p.y p.x) (sub q.y q.x)
  let b := Edwards.mul (p.y + p.x) (q.y + q.x)
  let c := Edwards.mul (Edwards.mul (2 * p.t) curveConstant) q.t
  let d := Edwards.mul (2 * p.z) q.z
  let e := sub b a
  let f := sub d c
  let g := d + c
  let h := b + a
  ⟨Edwards.mul e f, Edwards.mul g h, Edwards.mul f g, Edwards.mul e h⟩

def neg (p : Point) : Point := ⟨sub 0 p.x, p.y, p.z, sub 0 p.t⟩

/-- Doubling and adding over the low bits of the factor, `bits` of them. -/
def smulBits : Nat → (factor : Nat) → (p sum : Point) → Point
  | 0, _, _, sum => sum
  | bits + 1, factor, p, sum =>
    smulBits bits (factor / 2) (p.add p) (if factor % 2 = 1 then sum.add p else sum)

/-- A multiple of a point, for factors below `2 ^ 256`. -/
def smul (factor : Nat) (p : Point) : Point := smulBits 256 factor p zero

/-- True if two points are equal, whatever their denominators. -/
def same (p q : Point) : Bool :=
  Edwards.mul p.x q.z == Edwards.mul q.x p.z && Edwards.mul p.y q.z == Edwards.mul q.y p.z

/-- True if eight times the point is zero. -/
def hasSmallOrder (p : Point) : Bool :=
  let double (q : Point) := q.add q
  (double (double (double p))).same zero

/-- The 255 bits of `y` and the lowest bit of `x`, as a number of 256 bits. -/
def pack (p : Point) : Nat :=
  let i := inverse p.z
  Edwards.mul p.y i + (Edwards.mul p.x i % 2) <<< 255

/-- The point that a number of 256 bits names, if there is one. `y` may exceed the modulus, and
the sign of `x = 0` is not looked at. -/
def unpack? (packed : Nat) : Option Point :=
  let y := packed % 1 <<< 255 % modulus
  let yy := Edwards.mul y y
  match sqrtRatio (sub yy 1) (add (Edwards.mul curveConstant yy) 1) with
  | none => none
  | some root =>
    let x := if packed >>> 255 = 1 then sub 0 root else root
    some ⟨x, y, 1, Edwards.mul x y⟩

end Point

end HashLog.Edwards
