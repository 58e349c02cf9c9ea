import HashLog.Record.Hash
import Std.Data.TreeMap
import Std.Data.TreeSet
/-!
Sets of hashes, and lists of hashes without repetition.
-/
namespace HashLog

/-- A set of hashes, listed in ascending order. -/
abbrev HashSet := Std.TreeSet Hash

namespace HashSet

/-- The set of the listed hashes. -/
def ofList (hashes : List Hash) : HashSet := Std.TreeSet.ofList hashes

/-- The listed hashes outside the set, each where it occurs first. -/
def distinctFrom (seen : HashSet) : List Hash → List Hash
  | [] => []
  | hash :: rest =>
    if seen.contains hash then distinctFrom seen rest
    else hash :: distinctFrom (seen.insert hash) rest

end HashSet

/-- The listed hashes, each where it occurs first. -/
def distinct (hashes : List Hash) : List Hash := HashSet.distinctFrom ∅ hashes

end HashLog
