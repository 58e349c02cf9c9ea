/-!
JSON texts. A text is read into a tree that keeps the characters of numbers and strings as they
were written; what they stand for is asked for afterwards, since that depends on where they occur.
Writing is compact, and reading what was written gives the tree back.
-/
namespace HashLog

/-- A JSON value with its numbers and strings as written; strings without their quotes. -/
inductive Json where
  | null
  | bool (value : Bool)
  | number (literal : List Char)
  | string (body : List Char)
  | array (items : List Json)
  | object (fields : List (List Char × Json))

namespace Json

/-! ## Reading -/

def isBlank (c : Char) : Bool := c == ' ' || c == '\n' || c == '\t' || c == '\r'

def skipBlanks (text : List Char) : List Char := text.dropWhile isBlank

/-- Splits off the digits at the front; there has to be one. -/
def digits? (text : List Char) : Option (List Char × List Char) :=
  match text.takeWhile Char.isDigit with
  | [] => none
  | found => some (found, text.dropWhile Char.isDigit)

/-- Splits off a whole number: a zero, or digits that do not begin with one. -/
def whole? : List Char → Option (List Char × List Char)
  | '0' :: rest =>
    match rest with
    | c :: _ => if c.isDigit then none else some (['0'], rest)
    | [] => some (['0'], [])
  | text => digits? text

/-- Splits off a point with digits, if there is a point. -/
def fraction? : List Char → Option (List Char × List Char)
  | '.' :: rest => (digits? rest).map fun (found, rest) => ('.' :: found, rest)
  | text => some ([], text)

/-- Splits off a power of ten, if there is one. -/
def exponent? : List Char → Option (List Char × List Char)
  | c :: rest =>
    if c == 'e' || c == 'E' then
      match rest with
      | s :: after =>
        if s == '+' || s == '-' then
          (digits? after).map fun (found, rest) => (c :: s :: found, rest)
        else (digits? rest).map fun (found, rest) => (c :: found, rest)
      | [] => none
    else some ([], c :: rest)
  | [] => some ([], [])

/-- Splits off a number. -/
def number? (text : List Char) : Option (List Char × List Char) := do
  let (sign, rest) := match text with
    | '-' :: rest => (['-'], rest)
    | text => ([], text)
  let (whole, rest) ← whole? rest
  let (fraction, rest) ← fraction? rest
  let (exponent, rest) ← exponent? rest
  return (sign ++ whole ++ fraction ++ exponent, rest)

/-- Splits off the body of a string up to its closing quote, which is dropped. A backslash keeps
the character after it in the body. -/
def body? : List Char → Option (List Char × List Char)
  | '"' :: rest => some ([], rest)
  | '\\' :: c :: rest => (body? rest).map fun (body, rest) => ('\\' :: c :: body, rest)
  | c :: rest => (body? rest).map fun (body, rest) => (c :: body, rest)
  | [] => none

/-- Drops a word from the front of a text. -/
def word? (word : List Char) (text : List Char) : Option (List Char) :=
  if word.isPrefixOf text then some (text.drop word.length) else none

mutual

/-- Splits off a value. Every value takes a character, so fuel for every character is enough. -/
def valueWith : (fuel : Nat) → List Char → Option (Json × List Char)
  | 0, _ => none
  | fuel + 1, text =>
    match skipBlanks text with
    | 'n' :: rest => (word? "ull".toList rest).map (null, ·)
    | 't' :: rest => (word? "rue".toList rest).map (bool true, ·)
    | 'f' :: rest => (word? "alse".toList rest).map (bool false, ·)
    | '"' :: rest => (body? rest).map fun (body, rest) => (string body, rest)
    | '[' :: rest =>
      match skipBlanks rest with
      | ']' :: rest => some (array [], rest)
      | rest => (itemsWith fuel rest).map fun (items, rest) => (array items, rest)
    | '{' :: rest =>
      match skipBlanks rest with
      | '}' :: rest => some (object [], rest)
      | rest => (fieldsWith fuel rest).map fun (fields, rest) => (object fields, rest)
    | text => (number? text).map fun (literal, rest) => (number literal, rest)

/-- Splits off the values of an array that is not empty, with its closing bracket. -/
def itemsWith : (fuel : Nat) → List Char → Option (List Json × List Char)
  | 0, _ => none
  | fuel + 1, text =>
    match valueWith fuel text with
    | none => none
    | some (item, rest) =>
      match skipBlanks rest with
      | ',' :: rest => (itemsWith fuel rest).map fun (items, rest) => (item :: items, rest)
      | ']' :: rest => some ([item], rest)
      | _ => none

/-- Splits off the fields of an object that is not empty, with its closing brace. -/
def fieldsWith : (fuel : Nat) → List Char → Option (List (List Char × Json) × List Char)
  | 0, _ => none
  | fuel + 1, text =>
    match skipBlanks text with
    | '"' :: rest =>
      match body? rest with
      | none => none
      | some (name, rest) =>
        match skipBlanks rest with
        | ':' :: rest =>
          match valueWith fuel rest with
          | none => none
          | some (value, rest) =>
            match skipBlanks rest with
            | ',' :: rest =>
              (fieldsWith fuel rest).map fun (fields, rest) => ((name, value) :: fields, rest)
            | '}' :: rest => some ([(name, value)], rest)
            | _ => none
        | _ => none
    | _ => none

end

/-- The value that a text is, with blanks around it. -/
def parse (text : List Char) : Option Json :=
  match valueWith (2 * text.length + 2) text with
  | some (value, rest) => if (skipBlanks rest).isEmpty then some value else none
  | none => none

/-! ## Writing -/

/-- Pieces with commas between them. -/
def commas : List (List Char) → List Char
  | [] => []
  | [piece] => piece
  | piece :: rest => piece ++ ',' :: commas rest

mutual

/-- The compact text of a value. -/
def render : Json → List Char
  | null => "null".toList
  | bool true => "true".toList
  | bool false => "false".toList
  | number literal => literal
  | string body => '"' :: body ++ ['"']
  | array items => '[' :: commas (renderItems items) ++ [']']
  | object fields => '{' :: commas (renderFields fields) ++ ['}']

def renderItems : List Json → List (List Char)
  | [] => []
  | item :: rest => render item :: renderItems rest

def renderFields : List (List Char × Json) → List (List Char)
  | [] => []
  | (name, value) :: rest => ('"' :: name ++ '"' :: ':' :: render value) :: renderFields rest

end

end Json

end HashLog
