/-! Reading bytes as UTF-8, with a replacement character for every part that is none. -/
namespace VirtualShell.Text

def replacement : Char := Char.ofNat 0xFFFD

/-- Whether a byte lies in a range. -/
def between (low high : UInt8) (b : UInt8) : Bool := low ≤ b && b ≤ high

/-- The range of the second byte after a leading byte, and how many bytes follow in all. -/
def continuation (lead : UInt8) : Option (UInt8 × UInt8 × Nat) :=
  if between 0xC2 0xDF lead then some (0x80, 0xBF, 1)
  else if lead = 0xE0 then some (0xA0, 0xBF, 2)
  else if lead = 0xED then some (0x80, 0x9F, 2)
  else if between 0xE1 0xEF lead then some (0x80, 0xBF, 2)
  else if lead = 0xF0 then some (0x90, 0xBF, 3)
  else if lead = 0xF4 then some (0x80, 0x8F, 3)
  else if between 0xF1 0xF3 lead then some (0x80, 0xBF, 3)
  else none

/-- The number that `count` continuation bytes complete, or as many bytes as could start one. -/
def follow (low high : UInt8) : Nat → Nat → List UInt8 → Option Nat × List UInt8
  | 0, code, rest => (some code, rest)
  | _ + 1, _, [] => (none, [])
  | count + 1, code, b :: rest =>
    if between low high b then follow 0x80 0xBF count (code * 64 + (b.toNat - 0x80)) rest
    else (none, b :: rest)

/-- The bits of a code point that its leading byte holds. -/
def leadBits (lead : UInt8) (count : Nat) : Nat :=
  match count with
  | 1 => lead.toNat - 0xC0
  | 2 => lead.toNat - 0xE0
  | _ => lead.toNat - 0xF0

/-- The characters of a byte sequence; a longest part that starts no character becomes one replacement. -/
def decodeBytes : Nat → List UInt8 → List Char
  | 0, _ => []
  | _ + 1, [] => []
  | fuel + 1, b :: rest =>
    if b < 0x80 then Char.ofNat b.toNat :: decodeBytes fuel rest
    else match continuation b with
      | none => replacement :: decodeBytes fuel rest
      | some (low, high, count) =>
        match follow low high count (leadBits b count) rest with
        | (some code, rest) => Char.ofNat code :: decodeBytes fuel rest
        | (none, rest) => replacement :: decodeBytes fuel rest

/-- Bytes as text: exactly the text they encode, if they encode one. -/
def decodeLossy (bytes : ByteArray) : String :=
  match String.fromUTF8? bytes with
  | some text => text
  | none => .ofList (decodeBytes bytes.size bytes.toList)

end VirtualShell.Text
