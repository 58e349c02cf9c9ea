import HashLog.Exchange.Engine
import HashLog.Record.Json
/-!
Messages and what they mention in JSON.
-/
namespace HashLog

namespace NodeId

def toJson (id : NodeId) : Json := id.toOctets.toJson

def ofJson? (json : Json) : Option NodeId := (Octets.ofJson? json).map NodeId.mk

end NodeId

namespace Phase

/-- The number of the phase. -/
def toJson (phase : Phase) : Json := Json.ofNat phase.number

def ofJson? (json : Json) : Option Phase := (Json.natBelow? 256 json).bind ofNumber?

end Phase

namespace BackendKind

/-- The name of a kind in a configuration. -/
def name : BackendKind → String
  | mirror => "mirror"
  | store => "store"

def toJson (kind : BackendKind) : Json := Json.ofString kind.name

def ofJson? (json : Json) : Option BackendKind := do
  let (name, value) ← Json.choice? json
  if !Json.isNothing value then none
  else if name = mirror.name then some mirror
  else if name = store.name then some store
  else none

end BackendKind

namespace Message

def fieldNames : List String :=
  ["phase", "logical_begins", "logical_ends", "records_not_in_rx", "hashes_wanted"]

def toJson (m : Message) : Json :=
  Json.ofFields
    [("phase", m.phase.toJson),
     ("logical_begins", Json.ofList Hash.toJson m.begins),
     ("logical_ends", Json.ofList Hash.toJson m.ends),
     ("records_not_in_rx", Json.ofList Record.toJson m.records),
     ("hashes_wanted", Json.ofList Hash.toJson m.wanted)]

/-- Reads a message. A list that is missing is empty; the phase may not be missing. -/
def ofJson? (json : Json) : Option Message := do
  let members ← Json.members? fieldNames json
  let hashes := Json.list? Hash.ofJson?
  return {
    phase := ← Json.field? members "phase" Phase.ofJson?
    begins := ← Json.fieldOr? members "logical_begins" hashes []
    ends := ← Json.fieldOr? members "logical_ends" hashes []
    records := ← Json.fieldOr? members "records_not_in_rx" (Json.list? Record.ofJson?) []
    wanted := ← Json.fieldOr? members "hashes_wanted" hashes [] }

end Message

end HashLog
