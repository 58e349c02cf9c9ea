import HashLog.Json.Number
import HashLog.Json.Text
/-!
The forms in which structured data is written in JSON. A structure is an object with a member for
each of its fields, in any order, or the array of its fields in their order; members of other names
are passed over. A choice is a string with its name, or an object whose one member names it.
-/
namespace HashLog.Json

/-! ## Structures -/

/-- The name of an object's member, if it is a text. -/
def memberName? (body : List Char) : Option String := (bodyText? body).map String.ofList

/-- The members of these names. A name may occur once, and what is passed over has to be
well-formed. -/
def select? (names : List String) : List (List Char × Json) → Option (List (String × Json))
  | [] => some []
  | (body, value) :: rest => do
    let name ← memberName? body
    let others ← select? names rest
    if names.contains name then
      if (others.lookup name).isSome then none else some ((name, value) :: others)
    else if value.skips then some others
    else none

/-- The fields that a structure is written with. An array may stop early but not run on. -/
def members? (names : List String) : Json → Option (List (String × Json))
  | object fields => select? names fields
  | array items => if items.length ≤ names.length then some (names.zip items) else none
  | _ => none

/-- Reads a field that has to be there. -/
def field? {α : Type} (members : List (String × Json)) (name : String)
    (read? : Json → Option α) : Option α :=
  (members.lookup name).bind read?

/-- Reads a field that may be missing. -/
def fieldOr? {α : Type} (members : List (String × Json)) (name : String)
    (read? : Json → Option α) (default : α) : Option α :=
  match members.lookup name with
  | some value => read? value
  | none => some default

/-- Writes a structure as an object; field names are plain. -/
def ofFields (fields : List (String × Json)) : Json :=
  object (fields.map fun (name, value) => (name.toList, value))

/-! ## Choices -/

/-- The name of a choice, with the value that comes with it if there is one. -/
def choice? : Json → Option (String × Option Json)
  | string body => (memberName? body).map (·, none)
  | object [(body, value)] => (memberName? body).map (·, some value)
  | _ => none

/-- True for what may come with a choice that has no value. -/
def isNothing : Option Json → Bool
  | none | some null => true
  | some _ => false

/-! ## Plain values -/

/-- The whole number below a bound that a value is. -/
def natBelow? (bound : Nat) : Json → Option Nat
  | number literal =>
    match Number.ofLiteral? literal with
    | some (.unsigned value) => if value < bound then some value else none
    | _ => none
  | _ => none

def byte? (json : Json) : Option UInt8 := (natBelow? UInt8.size json).map UInt8.ofNat

def uint64? (json : Json) : Option UInt64 := (natBelow? UInt64.size json).map UInt64.ofNat

def int64? : Json → Option Int64
  | number literal =>
    match Number.ofLiteral? literal with
    | some (.unsigned value) => if value < 1 <<< 63 then some (Int64.ofNat value) else none
    | some (.negative value) => some (Int64.ofInt (-value))
    | _ => none
  | _ => none

/-- The bits of the floating-point number that a value is; whole numbers are rounded. -/
def float? : Json → Option UInt64
  | number literal => (Number.ofLiteral? literal).map Number.toFloatBits
  | _ => none

def bool? : Json → Option Bool
  | bool value => some value
  | _ => none

def text? : Json → Option String
  | string body => memberName? body
  | _ => none

/-- Null, or what a reader reads. -/
def orNull? {α : Type} (read? : Json → Option α) : Json → Option (Option α)
  | null => some none
  | json => (read? json).map some

/-- An array of values of one kind. -/
def list? {α : Type} (read? : Json → Option α) : Json → Option (List α)
  | array items => items.mapM read?
  | _ => none

/-- An array of bytes. -/
def byteArray? : Json → Option (List UInt8) := list? byte?

/-- An array of bytes, or a string that stands for them. -/
def bytes? : Json → Option (List UInt8)
  | string body => bodyBytes? body
  | json => byteArray? json

def ofBytes (bytes : List UInt8) : Json := array (bytes.map fun byte => ofNat byte.toNat)

def ofList {α : Type} (write : α → Json) (items : List α) : Json := array (items.map write)

/-- Writes a plain text. -/
def ofString (text : String) : Json := ofText text.toList

end HashLog.Json
