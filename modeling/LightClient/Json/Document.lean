import LightClient.Hex
import LightClient.Json.Value

/-!
# Writing JSON

A document is a tree of records with simple fields. It is written with one field a line, two blanks
of indentation a level, and one blank after each colon.
-/

namespace LightClient.Json

/-- What is written. -/
inductive Document where
  | text (value : String)
  | natural (value : Nat)
  | flag (value : Bool)
  | record (fields : List (String × Document))

/-- One character of a string, escaped where it must be. -/
def escape (c : Char) : List Char :=
  if c = '"' then ['\\', '"']
  else if c = '\\' then ['\\', '\\']
  else if c = '\x08' then ['\\', 'b']
  else if c = '\x0c' then ['\\', 'f']
  else if c = '\n' then ['\\', 'n']
  else if c = '\r' then ['\\', 'r']
  else if c = '\t' then ['\\', 't']
  else if c.toNat < 0x20 then
    ['\\', 'u', '0', '0', Hex.digit (c.toNat / 16), Hex.digit (c.toNat % 16)]
  else [c]

/-- A string in quotes. -/
def quote (text : String) : List Char :=
  '"' :: text.toList.flatMap escape ++ ['"']

/-- The decimal digits of a number. -/
def decimal (n : Nat) : List Char :=
  Nat.toDigits 10 n

/-- A new line at a level. -/
def newline (level : Nat) : List Char :=
  '\n' :: List.replicate (2 * level) ' '

/-- A field on a line of its own. -/
def fieldLine (level : Nat) (name : String) (value : List Char) : List Char :=
  newline level ++ quote name ++ [':', ' '] ++ value

/-- The lines of a record that starts at a level, in braces. -/
def enclose (level : Nat) (lines : List (List Char)) : List Char :=
  if lines.isEmpty then ['{', '}']
  else '{' :: List.intercalate [','] lines ++ newline level ++ ['}']

mutual

/-- A document whose first line stands at a level. -/
def Document.chars (level : Nat) : Document → List Char
  | .text value => quote value
  | .natural value => decimal value
  | .flag true => "true".toList
  | .flag false => "false".toList
  | .record fields => enclose level (fieldLines (level + 1) fields)

/-- The lines of the fields of a record, all at one level. -/
def fieldLines (level : Nat) : List (String × Document) → List (List Char)
  | [] => []
  | (name, value) :: fields =>
    fieldLine level name (value.chars level) :: fieldLines level fields

end

/-- The document as text. -/
def Document.render (d : Document) : String :=
  String.ofList (d.chars 0)

end LightClient.Json
