import HashLog.Record.Basic
/-!
Checks of a record before it is accepted: its hash is not null, it is not its own predecessor, its
hash is that of its content and, where the writer is known, its signature is the writer's. The
first check that fails is reported.
-/
namespace HashLog

/-- Why a record is refused. -/
inductive ValidationError where
  | signatureFailed (hash : Hash)
  | hashMismatch (claimed computed : Hash)
  | nullHash
  | selfReference (hash : Hash)
  deriving DecidableEq

def ValidationError.message : ValidationError → String
  | .signatureFailed hash => "signature verification failed for record " ++ hash.brief
  | .hashMismatch claimed computed =>
    "hash mismatch: record claims " ++ claimed.brief ++ ", content hashes to " ++ computed.brief
  | .nullHash => "record hash is the null sentinel"
  | .selfReference hash => "record " ++ hash.brief ++ " names itself as its predecessor"

namespace Record

/-- The checks that need no key. -/
def validateStructure (record : Record) : Except ValidationError Unit :=
  if record.hash.isNull then .error .nullHash
  else if record.prev = record.hash then .error (.selfReference record.hash)
  else if record.contentHash ≠ record.hash then
    .error (.hashMismatch record.hash record.contentHash)
  else .ok ()

/-- The signature check, for a log whose writer is known. -/
def validateSignature (writer : Option PublicKey) (record : Record) : Except ValidationError Unit :=
  match writer with
  | none => .ok ()
  | some key =>
    (key.verify record.hash.toList record.signature).mapError fun _ => .signatureFailed record.hash

/-- All checks. -/
def validate (writer : Option PublicKey) (record : Record) : Except ValidationError Unit :=
  match record.validateStructure with
  | .error fault => .error fault
  | .ok () => record.validateSignature writer

end Record

end HashLog
