/-!
# JSON tokens

A text is cut into tokens one character at a time. Between tokens stand blanks; a number or a name
is a run of characters that neither blanks nor punctuation can be part of; a string may spell a
character by its UTF-16 units. Units that do not pair up leave the string without a text, which is
no error until the text is needed.
-/

namespace LightClient.Json

/-- A piece of a string: a character, or a UTF-16 unit given by its number. -/
inductive Piece where
  | char (c : Char)
  | unit (code : Nat)

/-- Whether a unit is the first of a pair. -/
def isHighUnit (code : Nat) : Bool :=
  0xd800 ≤ code && code < 0xdc00

/-- Whether a unit is the second of a pair. -/
def isLowUnit (code : Nat) : Bool :=
  0xdc00 ≤ code && code < 0xe000

/-- The character that a pair of units spells. -/
def pairChar (high low : Nat) : Char :=
  Char.ofNat (0x10000 + (high - 0xd800) * 0x400 + (low - 0xdc00))

/-- The characters that pieces spell, unless a unit stands alone that belongs to a pair. -/
def joinPieces : List Piece → Option (List Char)
  | [] => some []
  | .char c :: rest => (joinPieces rest).map (c :: ·)
  | .unit high :: .unit low :: rest =>
    if isHighUnit high && isLowUnit low then (joinPieces rest).map (pairChar high low :: ·)
    else if isHighUnit high || isLowUnit high then none
    else (joinPieces (.unit low :: rest)).map (Char.ofNat high :: ·)
  | .unit code :: rest =>
    if isHighUnit code || isLowUnit code then none
    else (joinPieces rest).map (Char.ofNat code :: ·)

/-- The tokens. -/
inductive Token where
  | beginObject
  | endObject
  | beginArray
  | endArray
  | colon
  | comma
  | null
  | bool (value : Bool)
  /-- A number of digits only. -/
  | natural (value : Nat)
  /-- A number with a sign, a fraction or an exponent. -/
  | number
  /-- A string, with its text if it has one. -/
  | string (text : Option String)
  deriving DecidableEq

/-- The characters that may stand between tokens. -/
def isBlank (c : Char) : Bool :=
  c = ' ' || c = '\t' || c = '\n' || c = '\r'

/-- The decimal digits. -/
def isDigit (c : Char) : Bool :=
  '0' ≤ c && c ≤ '9'

/-- The characters of numbers and names. -/
def isWordChar (c : Char) : Bool :=
  isDigit c || ('a' ≤ c && c ≤ 'z') || ('A' ≤ c && c ≤ 'Z') || c = '+' || c = '-' || c = '.'

/-- The token of a punctuation mark. -/
def punctuation? (c : Char) : Option Token :=
  if c = '{' then some .beginObject
  else if c = '}' then some .endObject
  else if c = '[' then some .beginArray
  else if c = ']' then some .endArray
  else if c = ':' then some .colon
  else if c = ',' then some .comma
  else none

/-- Whether the characters are digits, and at least one. -/
def areDigits (cs : List Char) : Bool :=
  !cs.isEmpty && cs.all isDigit

/-- Whether the characters spell a number of digits only: no zero leads unless it is alone. -/
def areNatural (cs : List Char) : Bool :=
  areDigits cs && (cs.length = 1 || cs.head? ≠ some '0')

/-- Whether the characters are nothing or an exponent. -/
def isExponent : List Char → Bool
  | [] => true
  | c :: rest =>
    (c = 'e' || c = 'E') &&
      match rest with
      | '+' :: digits => areDigits digits
      | '-' :: digits => areDigits digits
      | digits => areDigits digits

/-- Whether the characters are a fraction or nothing, and behind it an exponent or nothing. -/
def isFraction : List Char → Bool
  | '.' :: rest => areDigits (rest.takeWhile isDigit) && isExponent (rest.dropWhile isDigit)
  | rest => isExponent rest

/-- Whether the characters spell a number without a sign in front. -/
def isUnsigned (cs : List Char) : Bool :=
  areNatural (cs.takeWhile isDigit) && isFraction (cs.dropWhile isDigit)

/-- Whether the characters spell a number. -/
def isNumber : List Char → Bool
  | '-' :: rest => isUnsigned rest
  | cs => isUnsigned cs

/-- The value of a run of digits. -/
def digitsValue (cs : List Char) : Nat :=
  cs.foldl (fun n c => 10 * n + (c.toNat - '0'.toNat)) 0

/-- The token of a run of word characters. -/
def wordToken? (cs : List Char) : Option Token :=
  if cs = "null".toList then some .null
  else if cs = "true".toList then some (.bool true)
  else if cs = "false".toList then some (.bool false)
  else if areNatural cs then some (.natural (digitsValue cs))
  else if isNumber cs then some .number
  else none

/-- The character that an escape of one letter spells. -/
def escaped? (c : Char) : Option Char :=
  if c = '"' then some '"'
  else if c = '\\' then some '\\'
  else if c = '/' then some '/'
  else if c = 'b' then some '\x08'
  else if c = 'f' then some '\x0c'
  else if c = 'n' then some '\n'
  else if c = 'r' then some '\r'
  else if c = 't' then some '\t'
  else none

/-- The value of a hexadecimal digit of either case. -/
def hexDigit? (c : Char) : Option Nat :=
  if '0' ≤ c ∧ c ≤ '9' then some (c.toNat - '0'.toNat)
  else if 'a' ≤ c ∧ c ≤ 'f' then some (c.toNat - 'a'.toNat + 10)
  else if 'A' ≤ c ∧ c ≤ 'F' then some (c.toNat - 'A'.toNat + 10)
  else none

/-- Where cutting stands: between tokens, or within one. What was read of a word or a string is kept
last character first. -/
inductive Mode where
  | between
  | word (rev : List Char)
  | string (rev : List Piece)
  | escape (rev : List Piece)
  /-- Within an escape by number, with so many digits of it to come. -/
  | unit (rev : List Piece) (code missing : Nat)

/-- Takes a character that does not continue a token. -/
def startToken (c : Char) : Option (Mode × List Token) :=
  if isBlank c then some (.between, [])
  else if c = '"' then some (.string [], [])
  else if isWordChar c then some (.word [c], [])
  else (punctuation? c).map fun t => (.between, [t])

/-- Takes one character, which may complete a token and be another. -/
def Mode.step (mode : Mode) (c : Char) : Option (Mode × List Token) :=
  match mode with
  | .between => startToken c
  | .word rev =>
    if isWordChar c then some (.word (c :: rev), [])
    else do
      let token ← wordToken? rev.reverse
      let (next, tokens) ← startToken c
      return (next, token :: tokens)
  | .string rev =>
    if c = '"' then some (.between, [.string ((joinPieces rev.reverse).map String.ofList)])
    else if c = '\\' then some (.escape rev, [])
    else if c.toNat < 0x20 then none
    else some (.string (.char c :: rev), [])
  | .escape rev =>
    if c = 'u' then some (.unit rev 0 4, [])
    else (escaped? c).map fun e => (.string (.char e :: rev), [])
  | .unit rev code missing => do
    let code := 16 * code + (← hexDigit? c)
    if missing ≤ 1 then return (.string (.unit code :: rev), [])
    else return (.unit rev code (missing - 1), [])

/-- The tokens of a text, the first of which may be under way. -/
def tokensFrom : Mode → List Char → Option (List Token)
  | .between, [] => some []
  | .word rev, [] => (wordToken? rev.reverse).map fun t => [t]
  | _, [] => none
  | mode, c :: cs => do
    let (next, tokens) ← mode.step c
    return tokens ++ (← tokensFrom next cs)

/-- The tokens of a text. -/
def tokens (text : String) : Option (List Token) :=
  tokensFrom .between text.toList

end LightClient.Json
