/-!
Well-formed UTF-8: shortest forms only, no surrogates, nothing above U+10FFFF.
-/
namespace HashLog.Utf8

/-- The range of the second byte after a lead byte of a longer character, with the number of plain
continuation bytes that follow it. -/
def second? (lead : UInt8) : Option (UInt8 × UInt8 × Nat) :=
  if 0xc2 ≤ lead && lead ≤ 0xdf then some (0x80, 0xbf, 0)
  else if lead == 0xe0 then some (0xa0, 0xbf, 1)
  else if lead == 0xed then some (0x80, 0x9f, 1)
  else if 0xe1 ≤ lead && lead ≤ 0xef then some (0x80, 0xbf, 1)
  else if lead == 0xf0 then some (0x90, 0xbf, 2)
  else if 0xf1 ≤ lead && lead ≤ 0xf3 then some (0x80, 0xbf, 2)
  else if lead == 0xf4 then some (0x80, 0x8f, 2)
  else none

/-- What the next byte has to be. -/
inductive Expect where
  /-- The first byte of a character. -/
  | lead
  /-- A byte in a range, then so many continuation bytes. -/
  | between (low high : UInt8) (further : Nat)

/-- Takes one byte. -/
def Expect.step? : Expect → UInt8 → Option Expect
  | lead, byte =>
    if byte < 0x80 then some lead
    else (second? byte).map fun (low, high, further) => between low high further
  | between low high further, byte =>
    if low ≤ byte && byte ≤ high then
      match further with
      | 0 => some lead
      | further + 1 => some (between 0x80 0xbf further)
    else none

/-- True if the bytes are whole characters, continuing from what is expected. -/
def validFrom : Expect → List UInt8 → Bool
  | .lead, [] => true
  | .between _ _ _, [] => false
  | expect, byte :: rest =>
    match expect.step? byte with
    | some next => validFrom next rest
    | none => false

/-- True if the bytes are the UTF-8 form of a text. -/
def valid (bytes : List UInt8) : Bool := validFrom .lead bytes

end HashLog.Utf8
