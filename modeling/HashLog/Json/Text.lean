import HashLog.Json.Basic
/-!
What the body of a JSON string stands for. As a text, escaped surrogates have to come in pairs and
control characters have to be escaped; as bytes, both are taken as they are; where a string is
skipped, only the form of its escapes and the control characters are looked at.
-/
namespace HashLog.Json

/-- A piece of a string body. -/
inductive Piece where
  /-- A character that stands for itself. -/
  | plain (c : Char)
  /-- A character written with a short escape. -/
  | short (c : Char)
  /-- A 16-bit unit written with four digits. -/
  | unit (value : Nat)
  deriving DecidableEq

/-- The value of a hexadecimal digit of either case. -/
def hexValue? (c : Char) : Option Nat :=
  if '0' ≤ c ∧ c ≤ '9' then some (c.toNat - 48)
  else if 'a' ≤ c ∧ c ≤ 'f' then some (c.toNat - 87)
  else if 'A' ≤ c ∧ c ≤ 'F' then some (c.toNat - 55)
  else none

/-- The character of a short escape. -/
def shortEscape? : Char → Option Char
  | '"' => some '"'
  | '\\' => some '\\'
  | '/' => some '/'
  | 'b' => some '\x08'
  | 'f' => some '\x0c'
  | 'n' => some '\n'
  | 'r' => some '\r'
  | 't' => some '\t'
  | _ => none

/-- The pieces of a body, if all its escapes are well-formed. -/
def pieces? : List Char → Option (List Piece)
  | [] => some []
  | '\\' :: 'u' :: a :: b :: c :: d :: rest => do
    let value := 16 * (16 * (16 * (← hexValue? a) + (← hexValue? b)) + (← hexValue? c))
    let unit := value + (← hexValue? d)
    return .unit unit :: (← pieces? rest)
  | '\\' :: c :: rest => do
    let short ← shortEscape? c
    return .short short :: (← pieces? rest)
  | c :: rest => do return .plain c :: (← pieces? rest)

def isLeading (unit : Nat) : Bool := 0xd800 ≤ unit && unit ≤ 0xdbff

def isTrailing (unit : Nat) : Bool := 0xdc00 ≤ unit && unit ≤ 0xdfff

/-- The code point of a pair of surrogates. -/
def joinPair (leading trailing : Nat) : Nat :=
  (leading - 0xd800) * 0x400 + (trailing - 0xdc00) + 0x10000

/-- True for a control character that has to be escaped. -/
def isControl (c : Char) : Bool := c.toNat < 0x20

/-- The text that pieces stand for. -/
def textOf? : List Piece → Option (List Char)
  | [] => some []
  | .plain c :: rest => if isControl c then none else (textOf? rest).map (c :: ·)
  | .short c :: rest => (textOf? rest).map (c :: ·)
  | .unit u :: rest =>
    if isTrailing u then none
    else if isLeading u then
      match rest with
      | .unit v :: rest =>
        if isTrailing v then (textOf? rest).map (Char.ofNat (joinPair u v) :: ·) else none
      | _ => none
    else (textOf? rest).map (Char.ofNat u :: ·)

/-- The UTF-8 form of a code point; a surrogate is written like any other. -/
def codePointBytes (n : Nat) : List UInt8 :=
  let tail (shift : Nat) : UInt8 := UInt8.ofNat (0x80 + (n >>> shift) % 64)
  if n < 0x80 then [UInt8.ofNat n]
  else if n < 0x800 then [UInt8.ofNat (0xc0 + n >>> 6), tail 0]
  else if n < 0x10000 then [UInt8.ofNat (0xe0 + n >>> 12), tail 6, tail 0]
  else [UInt8.ofNat (0xf0 + n >>> 18), tail 12, tail 6, tail 0]

/-- The bytes that pieces stand for. -/
def bytesOf : List Piece → List UInt8
  | [] => []
  | .plain c :: rest => codePointBytes c.toNat ++ bytesOf rest
  | .short c :: rest => codePointBytes c.toNat ++ bytesOf rest
  | .unit u :: .unit v :: rest =>
    if isLeading u && isTrailing v then codePointBytes (joinPair u v) ++ bytesOf rest
    else codePointBytes u ++ bytesOf (.unit v :: rest)
  | .unit u :: rest => codePointBytes u ++ bytesOf rest

/-- The text that a string body stands for. -/
def bodyText? (body : List Char) : Option (List Char) := (pieces? body).bind textOf?

/-- The bytes that a string body stands for. -/
def bodyBytes? (body : List Char) : Option (List UInt8) := (pieces? body).map bytesOf

/-- True if a string body may be skipped. -/
def bodySkips (body : List Char) : Bool :=
  match pieces? body with
  | some pieces => pieces.all fun
    | .plain c => !isControl c
    | _ => true
  | none => false

/-- A digit of an escape. -/
def hexChar (value : Nat) : Char := Char.ofNat (if value < 10 then 48 + value else 87 + value)

/-- How a character of a text is written. -/
def escapeChar (c : Char) : List Char :=
  if c = '"' then ['\\', '"']
  else if c = '\\' then ['\\', '\\']
  else if c = '\x08' then ['\\', 'b']
  else if c = '\x0c' then ['\\', 'f']
  else if c = '\n' then ['\\', 'n']
  else if c = '\r' then ['\\', 'r']
  else if c = '\t' then ['\\', 't']
  else if isControl c then
    ['\\', 'u', '0', '0', hexChar (c.toNat / 16), hexChar (c.toNat % 16)]
  else [c]

/-- The string of a text. -/
def ofText (text : List Char) : Json := string (text.flatMap escapeChar)

mutual

/-- True if a value may stand where no value is looked at. -/
def skips : Json → Bool
  | null | bool _ | number _ => true
  | string body => bodySkips body
  | array items => skipsItems items
  | object fields => skipsFields fields

def skipsItems : List Json → Bool
  | [] => true
  | item :: rest => skips item && skipsItems rest

def skipsFields : List (List Char × Json) → Bool
  | [] => true
  | (name, value) :: rest => bodySkips name && skips value && skipsFields rest

end

end HashLog.Json
