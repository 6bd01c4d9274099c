import LightClient.Json.Token

/-!
# JSON values

A value is built from tokens with a stack of the arrays and objects that are still open. Objects
keep every member in order, repeated names and names without a text included: it is for the reader
of a record to refuse them.
-/

namespace LightClient

/-- A JSON value as it was read. -/
inductive Json where
  | null
  | bool (value : Bool)
  | natural (value : Nat)
  /-- A number with a sign, a fraction or an exponent. -/
  | number
  /-- A string, with its text if it has one. -/
  | string (text : Option String)
  | array (items : List Json)
  | object (members : List (Option String × Json))

namespace Json

/-- The members of an object, with their names. -/
abbrev Members := List (Option String × Json)

/-- An array or object that waits for a value; what it holds already is kept last first. -/
inductive Frame where
  | array (rev : List Json)
  | object (rev : Members) (key : Option String)

/-- What may come next. -/
inductive State where
  | value (outer : List Frame)
  /-- The first value of an array, or its end. -/
  | firstItem (outer : List Frame)
  /-- The first name of an object, or its end. -/
  | firstName (outer : List Frame)
  /-- A name, behind a comma. -/
  | name (rev : Members) (outer : List Frame)
  | colon (rev : Members) (key : Option String) (outer : List Frame)
  /-- A comma or the end of an array. -/
  | afterItem (rev : List Json) (outer : List Frame)
  /-- A comma or the end of an object. -/
  | afterMember (rev : Members) (outer : List Frame)
  | done (value : Json)

/-- Puts a complete value into the innermost open array or object. -/
def complete (value : Json) : List Frame → State
  | [] => .done value
  | .array rev :: outer => .afterItem (value :: rev) outer
  | .object rev key :: outer => .afterMember ((key, value) :: rev) outer

/-- Starts a value with a token. -/
def startValue (outer : List Frame) : Token → Option State
  | .null => some (complete .null outer)
  | .bool b => some (complete (.bool b) outer)
  | .natural n => some (complete (.natural n) outer)
  | .number => some (complete .number outer)
  | .string text => some (complete (.string text) outer)
  | .beginArray => some (.firstItem outer)
  | .beginObject => some (.firstName outer)
  | _ => none

/-- Takes one token. -/
def State.step : State → Token → Option State
  | .value outer, t => startValue outer t
  | .firstItem outer, .endArray => some (complete (.array []) outer)
  | .firstItem outer, t => startValue (.array [] :: outer) t
  | .firstName outer, .endObject => some (complete (.object []) outer)
  | .firstName outer, .string key => some (.colon [] key outer)
  | .name rev outer, .string key => some (.colon rev key outer)
  | .colon rev key outer, .colon => some (.value (.object rev key :: outer))
  | .afterItem rev outer, .comma => some (.value (.array rev :: outer))
  | .afterItem rev outer, .endArray => some (complete (.array rev.reverse) outer)
  | .afterMember rev outer, .comma => some (.name rev outer)
  | .afterMember rev outer, .endObject => some (complete (.object rev.reverse) outer)
  | _, _ => none

/-- The value that a list of tokens spells. -/
def ofTokens? (ts : List Token) : Option Json := do
  match ← ts.foldlM State.step (.value []) with
  | .done value => some value
  | _ => none

/-- The value that a text spells. -/
def parse? (text : String) : Option Json := do
  ofTokens? (← tokens text)

end Json

end LightClient
