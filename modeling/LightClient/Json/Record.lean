import LightClient.Error
import LightClient.Json.Value

/-!
# Reading records from JSON

A record is an object that names its fields, or an array that gives them in order. Each field is
named at most once. Whether other names are allowed is for the record to say. A field is of a
simple kind: a truth value, a number within bounds, or a text.
-/

namespace LightClient.Json

/-- Whether a record may have members that it does not know. -/
inductive Strictness where
  | exact
  | lenient
  deriving DecidableEq

/-- The text of a string. -/
def text? : Json → Option String
  | .string text => text
  | _ => none

/-- A truth value. -/
def bool? : Json → Option Bool
  | .bool b => some b
  | _ => none

/-- A number written without sign, fraction and exponent, below a bound. -/
def naturalBelow? (bound : Nat) : Json → Option Nat
  | .natural n => if n < bound then some n else none
  | _ => none

/-- A number that fits 32 bits. -/
def uint32? (v : Json) : Option UInt32 :=
  (v.naturalBelow? UInt32.size).map UInt32.ofNat

/-- A number that fits 64 bits. -/
def uint64? (v : Json) : Option UInt64 :=
  (v.naturalBelow? UInt64.size).map UInt64.ofNat

/-- What `null` or an absent field stands for, and what another value does. -/
def optional? {α : Type} (read : Json → Option α) : Option Json → Option (Option α)
  | none => some none
  | some .null => some none
  | some v => (read v).map some

/-- The members with their names as texts, if all have one. -/
def namedMembers? (members : Members) : Option (List (String × Json)) :=
  members.mapM fun (name, v) => do return (← name, v)

/-- The values of the given fields, in their order; `none` stands for a field that is absent. -/
def fields? (strictness : Strictness) (names : List String) : Json → Option (List (Option Json))
  | .array items => if items.length = names.length then some (items.map some) else none
  | .object members => do
    let named ← namedMembers? members
    guard (strictness = .lenient ∨ named.all fun (name, _) => names.contains name)
    guard (names.all fun name => named.countP (·.1 = name) ≤ 1)
    return names.map fun name => named.lookup name
  | _ => none

/-- The values of the given fields, in their order, if none is absent. -/
def allFields? (strictness : Strictness) (names : List String) (v : Json) : Option (List Json) := do
  (← v.fields? strictness names).mapM id

/-- Reads a text with a reader for values, whose refusal is an error like any other. -/
def read {α : Type} (reader : Json → Option α) (text : String) : Except Error α :=
  match parse? text >>= reader with
  | some a => .ok a
  | none => .error .json

end LightClient.Json
