import HashLog.Bytes.Octets
/-!
Hashes of records. The hash of all zeros names no record: it stands where a first record would
name its predecessor.
-/
namespace HashLog

/-- The hash that identifies a record. -/
structure Hash extends Octets 32 where
  deriving DecidableEq

namespace Hash

theorem ext_toList {a b : Hash} (same : a.toList = b.toList) : a = b := by
  cases a; cases b; exact congrArg Hash.mk (Octets.ext_toList same)

/-- The predecessor of a first record. -/
def null : Hash := ⟨Octets.fill 32 0⟩

def isNull (hash : Hash) : Bool := hash == null

@[simp] theorem isNull_eq_true {hash : Hash} : hash.isNull = true ↔ hash = null := by
  simp [isNull]

/-- The hash with these bytes, if there are 32 of them. -/
def ofList? (bytes : List UInt8) : Option Hash := (Octets.ofList? bytes).map Hash.mk

instance : Inhabited Hash := ⟨null⟩

instance : Ord Hash := ⟨fun a b => compare a.toOctets b.toOctets⟩

instance : Std.TransOrd Hash where
  eq_swap := Std.OrientedOrd.eq_swap (α := Octets 32)
  isLE_trans first second := Std.TransOrd.isLE_trans (α := Octets 32) first second

instance : Std.LawfulEqOrd Hash where
  compare_self := Std.ReflOrd.compare_self (α := Octets 32)
  eq_of_compare same :=
    ext_toList (congrArg Octets.toList (Std.LawfulEqOrd.eq_of_compare (α := Octets 32) same))

/-- How a hash shows in diagnostics. -/
def describe (hash : Hash) : String :=
  if hash.isNull then "RecordHash(null)" else "RecordHash(" ++ hash.brief ++ ")"

end Hash

end HashLog
