import HashLog.Bytes.Octets
/-!
SHA-512. The padded message is cut into blocks of sixteen words; each block is stretched into a
schedule of eighty words, one for each step of the compression.
-/
namespace HashLog.Sha512

/-- The eight words of the hash state. -/
structure State where
  (a b c d e f g h : UInt64)
  deriving DecidableEq

def State.initial : State :=
  ⟨0x6a09e667f3bcc908, 0xbb67ae8584caa73b, 0x3c6ef372fe94f82b, 0xa54ff53a5f1d36f1,
    0x510e527fade682d1, 0x9b05688c2b3e6c1f, 0x1f83d9abfb41bd6b, 0x5be0cd19137e2179⟩

def State.add (x y : State) : State :=
  ⟨x.a + y.a, x.b + y.b, x.c + y.c, x.d + y.d, x.e + y.e, x.f + y.f, x.g + y.g, x.h + y.h⟩

/-- The constants of the eighty steps: fractional parts of the cube roots of the first primes. -/
def stepConstants : List UInt64 :=
  [0x428a2f98d728ae22, 0x7137449123ef65cd, 0xb5c0fbcfec4d3b2f, 0xe9b5dba58189dbbc,
    0x3956c25bf348b538, 0x59f111f1b605d019, 0x923f82a4af194f9b, 0xab1c5ed5da6d8118,
    0xd807aa98a3030242, 0x12835b0145706fbe, 0x243185be4ee4b28c, 0x550c7dc3d5ffb4e2,
    0x72be5d74f27b896f, 0x80deb1fe3b1696b1, 0x9bdc06a725c71235, 0xc19bf174cf692694,
    0xe49b69c19ef14ad2, 0xefbe4786384f25e3, 0x0fc19dc68b8cd5b5, 0x240ca1cc77ac9c65,
    0x2de92c6f592b0275, 0x4a7484aa6ea6e483, 0x5cb0a9dcbd41fbd4, 0x76f988da831153b5,
    0x983e5152ee66dfab, 0xa831c66d2db43210, 0xb00327c898fb213f, 0xbf597fc7beef0ee4,
    0xc6e00bf33da88fc2, 0xd5a79147930aa725, 0x06ca6351e003826f, 0x142929670a0e6e70,
    0x27b70a8546d22ffc, 0x2e1b21385c26c926, 0x4d2c6dfc5ac42aed, 0x53380d139d95b3df,
    0x650a73548baf63de, 0x766a0abb3c77b2a8, 0x81c2c92e47edaee6, 0x92722c851482353b,
    0xa2bfe8a14cf10364, 0xa81a664bbc423001, 0xc24b8b70d0f89791, 0xc76c51a30654be30,
    0xd192e819d6ef5218, 0xd69906245565a910, 0xf40e35855771202a, 0x106aa07032bbd1b8,
    0x19a4c116b8d2d0c8, 0x1e376c085141ab53, 0x2748774cdf8eeb99, 0x34b0bcb5e19b48a8,
    0x391c0cb3c5c95a63, 0x4ed8aa4ae3418acb, 0x5b9cca4f7763e373, 0x682e6ff3d6b2b8a3,
    0x748f82ee5defb2fc, 0x78a5636f43172f60, 0x84c87814a1f0ab72, 0x8cc702081a6439ec,
    0x90befffa23631e28, 0xa4506cebde82bde9, 0xbef9a3f7b2c67915, 0xc67178f2e372532b,
    0xca273eceea26619c, 0xd186b8c721c0c207, 0xeada7dd6cde0eb1e, 0xf57d4f7fee6ed178,
    0x06f067aa72176fba, 0x0a637dc5a2c898a6, 0x113f9804bef90dae, 0x1b710b35131c471b,
    0x28db77f523047d84, 0x32caab7b40c72493, 0x3c9ebe0a15c9bebc, 0x431d67c49c100d4c,
    0x4cc5d4becb3e42b6, 0x597f299cfc657e2a, 0x5fcb6fab3ad6faec, 0x6c44198c4a475817]

def rotate (amount : UInt64) (word : UInt64) : UInt64 :=
  word >>> amount ||| word <<< (64 - amount)

/-- One step with the sum of its constant and its schedule word. -/
def State.step (s : State) (word : UInt64) : State :=
  let sum1 := rotate 14 s.e ^^^ rotate 18 s.e ^^^ rotate 41 s.e
  let choice := (s.e &&& s.f) ^^^ (~~~s.e &&& s.g)
  let first := s.h + sum1 + choice + word
  let sum0 := rotate 28 s.a ^^^ rotate 34 s.a ^^^ rotate 39 s.a
  let majority := (s.a &&& s.b) ^^^ (s.a &&& s.c) ^^^ (s.b &&& s.c)
  ⟨first + sum0 + majority, s.a, s.b, s.c, s.d + first, s.e, s.f, s.g⟩

/-- The schedule that starts with the sixteen words of `window`, `count` words long. -/
def schedule : (count : Nat) → (window : List UInt64) → List UInt64
  | 0, _ => []
  | _, [] => []
  | count + 1, oldest :: window =>
    let sigma0 (w : UInt64) := rotate 1 w ^^^ rotate 8 w ^^^ w >>> 7
    let sigma1 (w : UInt64) := rotate 19 w ^^^ rotate 61 w ^^^ w >>> 6
    let next := sigma1 (window.getD 13 0) + window.getD 8 0 + sigma0 (window.getD 0 0) + oldest
    oldest :: schedule count (window ++ [next])

/-- The state after one block of sixteen words. -/
def State.absorb (s : State) (block : List UInt64) : State :=
  s.add ((List.zipWith (· + ·) stepConstants (schedule 80 block)).foldl step s)

/-- Big-endian words of eight bytes. -/
def words : List UInt8 → List UInt64
  | a :: b :: c :: d :: e :: f :: g :: h :: rest =>
    (a.toUInt64 <<< 56 ||| b.toUInt64 <<< 48 ||| c.toUInt64 <<< 40 ||| d.toUInt64 <<< 32 |||
      e.toUInt64 <<< 24 ||| f.toUInt64 <<< 16 ||| g.toUInt64 <<< 8 ||| h.toUInt64) :: words rest
  | _ => []

/-- The message with its end mark, zeros and its length in bits, a multiple of 128 bytes. -/
def pad (message : List UInt8) : List UInt8 :=
  let used := message.length + 17
  message ++ 0x80 :: List.replicate ((128 - used % 128) % 128) 0 ++
    bigEndian 16 (8 * message.length)

/-- Groups of sixteen words; the first argument bounds their number. -/
def blocks : Nat → List UInt64 → List (List UInt64)
  | 0, _ => []
  | bound + 1, w => if w.isEmpty then [] else w.take 16 :: blocks bound (w.drop 16)

/-- A state as bytes, each word big-endian. -/
def State.bytes (s : State) : List UInt8 :=
  let word (w : UInt64) : List UInt8 :=
    [(w >>> 56).toUInt8, (w >>> 48).toUInt8, (w >>> 40).toUInt8, (w >>> 32).toUInt8,
      (w >>> 24).toUInt8, (w >>> 16).toUInt8, (w >>> 8).toUInt8, w.toUInt8]
  word s.a ++ word s.b ++ word s.c ++ word s.d ++ word s.e ++ word s.f ++ word s.g ++ word s.h

/-- The 64-byte hash of a message. -/
def hash (message : List UInt8) : Octets 64 :=
  let w := words (pad message)
  ⟨((blocks w.length w).foldl State.absorb .initial).bytes, rfl⟩

end HashLog.Sha512
