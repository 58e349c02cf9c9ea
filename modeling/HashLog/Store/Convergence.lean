import HashLog.Store.Store
/-!
Telling whether two stores hold the same records. Each store is summed up by a digest of its hashes
in ascending order, so neither the order of arrival nor the kind of store matters; stores whose
digests differ are compared hash by hash.
-/
namespace HashLog

/-- What sets the bytes of a record set apart from anything else that is hashed. -/
def digestDomain : String := "capsule-record-set-v1:"

/-- The bytes that stand for a collection of hashes: their domain, then the hashes in ascending
order. -/
def setBytes (hashes : List Hash) : List UInt8 :=
  (digestDomain.toList.map fun c => UInt8.ofNat c.toNat) ++
    (hashes.mergeSort fun a b => (compare a b).isLE).flatMap fun hash => hash.toList

namespace Store

/-- The hashes of all records in commit order. -/
def hashes (s : Store) : Except StoreError (List Hash) :=
  s.readAllMetadata.map fun stored => stored.map Metadata.hash

/-- The digest of all hashes in a store. -/
def setDigest (s : Store) : Except StoreError (Octets 32) :=
  s.hashes.map fun hashes => Blake3.hash (setBytes hashes)

end Store

/-- How two stores compare. -/
inductive Convergence where
  /-- The digests are the same. -/
  | converged
  /-- The numbers of records that only one of the two holds. -/
  | diverged (localOnly remoteOnly : Nat)
  deriving DecidableEq

namespace HashSet

/-- The number of members that another set lacks. -/
def countOutside (a b : HashSet) : Nat := (a.toList.filter fun hash => !b.contains hash).length

end HashSet

namespace Store

/-- Compares two stores. -/
def compareWith (near far : Store) : Except StoreError Convergence := do
  if (← near.setDigest) = (← far.setDigest) then return .converged
  let nearSet := HashSet.ofList (← near.hashes)
  let farSet := HashSet.ofList (← far.hashes)
  return .diverged (nearSet.countOutside farSet) (farSet.countOutside nearSet)

end Store

end HashLog
