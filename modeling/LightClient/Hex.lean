import LightClient.Bytes

/-!
# Hexadecimal text

Two digits spell one octet, the higher half first. Writing uses lower case; reading takes either
case and skips one leading `0x`. A text is judged by its UTF-8 octets: an odd number of them is
refused before any of them is looked at.
-/

namespace LightClient.Hex

/-- Why a text is not a byte string in hexadecimal. -/
inductive Fault where
  /-- The digits do not pair up. -/
  | oddLength
  /-- The octet at this position is no hexadecimal digit. -/
  | invalidCharacter (octet : UInt8) (position : Nat)
  deriving DecidableEq, Repr

/-- The lower-case digit for a value below sixteen. -/
def digit (value : Nat) : Char :=
  if value < 10 then Char.ofNat ('0'.toNat + value) else Char.ofNat ('a'.toNat + (value - 10))

/-- The digits of one octet. -/
def octetDigits (b : UInt8) : List Char :=
  [digit (b.toNat / 16), digit (b.toNat % 16)]

/-- The digits of a byte string. -/
def digits (bs : Bytes) : List Char :=
  bs.flatMap octetDigits

/-- A byte string in lower-case hexadecimal. -/
def encode (bs : Bytes) : String :=
  String.ofList (digits bs)

/-- The value of an ASCII hexadecimal digit of either case. -/
def digitValue? (octet : UInt8) : Option Nat :=
  let n := octet.toNat
  if '0'.toNat ≤ n ∧ n ≤ '9'.toNat then some (n - '0'.toNat)
  else if 'a'.toNat ≤ n ∧ n ≤ 'f'.toNat then some (n - 'a'.toNat + 10)
  else if 'A'.toNat ≤ n ∧ n ≤ 'F'.toNat then some (n - 'A'.toNat + 10)
  else none

/-- The value of a digit, or the fault of its position. -/
def digitValue (octet : UInt8) (position : Nat) : Except Fault Nat :=
  match digitValue? octet with
  | some value => .ok value
  | none => .error (.invalidCharacter octet position)

/-- Reads pairs of digits, the first of which stands at `position`. -/
def decodePairs (position : Nat) : Bytes → Except Fault Bytes
  | high :: low :: rest => do
    let h ← digitValue high position
    let l ← digitValue low (position + 1)
    let bs ← decodePairs (position + 2) rest
    return UInt8.ofNat (16 * h + l) :: bs
  | [_] => .error .oddLength
  | [] => .ok []

/-- Reads a string of digits given by its octets. -/
def decodeOctets (octets : Bytes) : Except Fault Bytes :=
  if octets.length % 2 = 1 then .error .oddLength else decodePairs 0 octets

/-- The characters of a text without one leading `0x`. -/
def dropMarker (text : String) : List Char :=
  match text.toList with
  | '0' :: 'x' :: rest => rest
  | chars => chars

/-- The UTF-8 octets of a list of characters. -/
def utf8 (chars : List Char) : Bytes :=
  chars.flatMap String.utf8EncodeChar

/-- Reads hexadecimal text, with or without a leading `0x`. -/
def decode (text : String) : Except Fault Bytes :=
  decodeOctets (utf8 (dropMarker text))

/-- The hexadecimal digits of a number, without leading zeros. -/
def ofNat (n : Nat) : String :=
  String.ofList ((Nat.toDigits 16 n))

/-- A number in hexadecimal, filled up with zeros to at least `width` digits. -/
def ofNatPadded (width n : Nat) : String :=
  let ds := Nat.toDigits 16 n
  String.ofList (List.replicate (width - ds.length) '0' ++ ds)

/-- One octet, taken as the character of that code point, in single quotes. Characters that do not
print are escaped. -/
def quoteOctet (octet : UInt8) : String :=
  let body :=
    if octet = 0x00 then "\\0"
    else if octet = 0x09 then "\\t"
    else if octet = 0x0a then "\\n"
    else if octet = 0x0d then "\\r"
    else if octet = 0x27 then "\\'"
    else if octet = 0x5c then "\\\\"
    else if octet < 0x20 ∨ (0x7f ≤ octet ∧ octet ≤ 0xa0) ∨ octet = 0xad then
      "\\u\x7b" ++ ofNat octet.toNat ++ "\x7d"
    else (Char.ofNat octet.toNat).toString
  "'" ++ body ++ "'"

/-- What is wrong, in words. -/
def Fault.message : Fault → String
  | .oddLength => "Odd number of digits"
  | .invalidCharacter octet position =>
    "Invalid character " ++ quoteOctet octet ++ " at position " ++ toString position

end LightClient.Hex
