import HashLog.Exchange.Message
/-!
Settings of an exchange, with the bounds that they are held to.
-/
namespace HashLog

/-- How one replica conducts its exchanges. -/
structure Settings where
  /-- The age in milliseconds beyond which an unfinished conversation is dropped. -/
  timeout : Nat
  /-- The most records that one walk passes through. -/
  traversalLimit : Nat
  /-- The most records to send in one message, before it is held to the bounds. -/
  recordsPerMessage : Nat
  /-- The most hashes to ask for in one message, before it is held to the bounds. -/
  hashesWanted : Nat
  /-- Whether received records are checked. -/
  verify : Bool
  /-- The writer whose signature every received record must carry. -/
  writer : Option PublicKey
  deriving DecidableEq

namespace Settings

def standard : Settings where
  timeout := 30000
  traversalLimit := 1000000
  recordsPerMessage := Message.maxRecords
  hashesWanted := Message.maxWanted
  verify := true
  writer := none

/-- The records that fit a message: at least one and no more than a receiver accepts. -/
def recordBudget (s : Settings) : Nat := max 1 (min s.recordsPerMessage Message.maxRecords)

/-- The hashes that a message asks for: at least one and no more than a receiver accepts. -/
def wantedBudget (s : Settings) : Nat := max 1 (min s.hashesWanted Message.maxWanted)

/-- Checks received records as the settings ask, all of them before any is used. -/
def checkRecords (s : Settings) (records : List Record) : Except ValidationError Unit :=
  if s.verify then records.forM (Record.validate s.writer) else .ok ()

end Settings

end HashLog
