import HashLog.Crypto.Edwards
import HashLog.Crypto.Sha512
/-!
Ed25519 keys and signatures. Verification is strict: it refuses a response that is not reduced,
commitments and keys of small order, and compares points without clearing the cofactor.
-/
namespace HashLog

/-- A writer's verifying key. -/
structure PublicKey extends Octets 32 where
  deriving DecidableEq

/-- A signature: the commitment in the first half, the response in the second. -/
structure Signature extends Octets 64 where
  deriving DecidableEq

/-- A signing key, derived from a secret seed. -/
structure Keypair where
  seed : Octets 32
  deriving DecidableEq

/-- Why a signature is not accepted. -/
inductive SignatureFault where
  | invalidPublicKey
  | invalidSignature
  deriving DecidableEq, Repr

def SignatureFault.message : SignatureFault → String
  | .invalidPublicKey => "invalid public key"
  | .invalidSignature => "invalid signature"

namespace Signature

/-- The placeholder that unsigned records carry. -/
def unsigned : Signature := ⟨Octets.fill 64 0⟩

/-- The bytes of the commitment. -/
def commitment (signature : Signature) : List UInt8 := signature.toList.take 32

/-- The response as a number. -/
def response (signature : Signature) : Nat := ofLittleEndian (signature.toList.drop 32)

/-- How a signature shows in diagnostics. -/
def describe (signature : Signature) : String :=
  if signature.isZero then "Ed25519Signature(unsigned)"
  else "Ed25519Signature(" ++ signature.brief ++ ")"

end Signature

/-- The scalar that ties a commitment to a key and a message. -/
def challenge (commitment key message : List UInt8) : Nat :=
  (Sha512.hash (commitment ++ key ++ message)).toNat % Edwards.order

namespace PublicKey

/-- How a key shows in diagnostics. -/
def describe (key : PublicKey) : String := "Ed25519PublicKey(" ++ key.brief ++ ")"

/-- Checks a signature over a message. A key that names no point is reported as such, whatever
the signature. -/
def verify (key : PublicKey) (message : List UInt8) (signature : Signature) :
    Except SignatureFault Unit :=
  (Edwards.Point.unpack? key.toNat).elim (.error .invalidPublicKey) fun point =>
    if Edwards.order ≤ signature.response then .error .invalidSignature
    else
      (Edwards.Point.unpack? (ofLittleEndian signature.commitment)).elim (.error .invalidSignature)
        fun commitment =>
          if commitment.hasSmallOrder || point.hasSmallOrder then .error .invalidSignature
          else
            let k := challenge signature.commitment key.toList message
            let expected := (Edwards.Point.base.smul signature.response).add (point.neg.smul k)
            if expected.same commitment then .ok () else .error .invalidSignature

end PublicKey

namespace Keypair

/-- The hash of the seed: the secret scalar in its first half, the nonce key in its second. -/
def expanded (keys : Keypair) : List UInt8 := (Sha512.hash keys.seed.toList).toList

/-- The secret scalar: a multiple of eight with its highest bit at position 254. -/
def scalar (keys : Keypair) : Nat :=
  let n := ofLittleEndian (keys.expanded.take 32)
  n % 1 <<< 254 / 8 * 8 + 1 <<< 254

def publicKey (keys : Keypair) : PublicKey :=
  ⟨.ofNat 32 (Edwards.Point.base.smul keys.scalar).pack⟩

/-- Signs a message; the nonce is derived from the secret and the message. -/
def sign (keys : Keypair) (message : List UInt8) : Signature :=
  let nonce := (Sha512.hash (keys.expanded.drop 32 ++ message)).toNat % Edwards.order
  let commitment := littleEndian 32 (Edwards.Point.base.smul nonce).pack
  let k := challenge commitment keys.publicKey.toList message
  ⟨⟨commitment ++ littleEndian 32 ((nonce + k * keys.scalar) % Edwards.order),
    by simp [commitment]⟩⟩

/-- How a key pair shows in diagnostics; the secret half is left out. -/
def describe (keys : Keypair) : String :=
  "Keypair \x7b public: " ++ keys.publicKey.describe ++ ", .. \x7d"

end Keypair

end HashLog
