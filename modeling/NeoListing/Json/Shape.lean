import NeoListing.Json.Display
import NeoListing.Text.Integer

/-! # Taking values apart

Access to the parts of a JSON value that may not have the expected shape, with a precise
account of what is wrong with it.
-/

namespace NeoListing.Json

inductive ShapeError where
  /-- An object lacks a member. -/
  | noMember (name : String)
  /-- A member was asked of a value that has no parts. -/
  | noParts (kind : String)
  /-- A member was asked of an array. -/
  | arrayIndex
  /-- A member was asked of a text. -/
  | textIndex
  /-- The items were asked of a value that has none. -/
  | noItems (kind : String)
  /-- An operation that only objects, or only texts, have. -/
  | noOperation (kind operation : String)
  /-- A number was asked of a value that cannot be one. -/
  | notNumeric (kind : String)
  | notAnInteger (e : Text.IntegerError)
  | notANumber
  | infinite
  deriving DecidableEq, Repr

def ShapeError.message : ShapeError → String
  | .noMember name => Text.quoted name
  | .noParts kind => "'" ++ kind ++ "' object is not subscriptable"
  | .arrayIndex => "list indices must be integers or slices, not str"
  | .textIndex => "string indices must be integers, not 'str'"
  | .noItems kind => "'" ++ kind ++ "' object is not iterable"
  | .noOperation kind operation => "'" ++ kind ++ "' object has no attribute '" ++ operation ++ "'"
  | .notNumeric kind =>
    "int() argument must be a string, a bytes-like object or a real number, not '" ++ kind ++ "'"
  | .notAnInteger e => e.message
  | .notANumber => "cannot convert float NaN to integer"
  | .infinite => "cannot convert float infinity to integer"

def member? (name : String) : Json → Option Json
  | .object members => find? members name
  | _ => none

def member (v : Json) (name : String) : Except ShapeError Json :=
  match v with
  | .object members =>
    match find? members name with
    | some m => .ok m
    | none => .error (.noMember name)
  | .array _ => .error .arrayIndex
  | .text _ => .error .textIndex
  | v => .error (.noParts v.kind)

def memberOr (v : Json) (name : String) (default : Json) : Except ShapeError Json :=
  match v with
  | .object members => .ok ((find? members name).getD default)
  | v => .error (.noOperation v.kind "get")

def items : Json → Except ShapeError (List Json)
  | .array items => .ok items
  | .object members => .ok (members.map (fun m => .text m.1))
  | .text s => .ok (s.map (fun p => .text [p]))
  | v => .error (.noItems v.kind)

/-- The integer that a value stands for; fractions are cut off. -/
def toInt : Json → Except ShapeError Int
  | .bool b => .ok (if b then 1 else 0)
  | .int n => .ok n
  | .float .nan => .error .notANumber
  | .float (.infinite _) => .error .infinite
  | .float (.finite negative mantissa exponent) =>
    .ok (Binary64.truncate negative mantissa exponent)
  | .text s =>
    match Text.integer s with
    | .ok n => .ok n
    | .error e => .error (.notAnInteger e)
  | v => .error (.notNumeric v.kind)

end NeoListing.Json
