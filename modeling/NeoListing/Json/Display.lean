import NeoListing.Json.Value
import NeoListing.Number.Shortest
import NeoListing.Text.Integer
import NeoListing.Text.Quoted

/-! # JSON values in messages

The text that messages show for a value, and the name of its kind.
-/

namespace NeoListing.Json

def kind : Json → String
  | .null => "NoneType"
  | .bool _ => "bool"
  | .int _ => "int"
  | .float _ => "float"
  | .text _ => "str"
  | .array _ => "list"
  | .object _ => "dict"

mutual

def display : Json → String
  | .null => "None"
  | .bool true => "True"
  | .bool false => "False"
  | .int n => toString n
  | .float x => x.text
  | .text s => Text.quoted s
  | .array items => "[" ++ ", ".intercalate (displayItems items) ++ "]"
  | .object members => "\x7b" ++ ", ".intercalate (displayMembers members) ++ "\x7d"

def displayItems : List Json → List String
  | [] => []
  | v :: rest => display v :: displayItems rest

def displayMembers : List (Text × Json) → List String
  | [] => []
  | (name, v) :: rest => (Text.quoted name ++ ": " ++ display v) :: displayMembers rest

end

def plain : Json → Text
  | .text s => s
  | v => v.display

mutual

/-- Whether all integers in a value can be written. Those that were read can. -/
def isWritable : Json → Bool
  | .int n => (Text.decimal? n).isSome
  | .array items => itemsWritable items
  | .object members => membersWritable members
  | _ => true

def itemsWritable : List Json → Bool
  | [] => true
  | v :: rest => v.isWritable && itemsWritable rest

def membersWritable : List (Text × Json) → Bool
  | [] => true
  | (_, v) :: rest => v.isWritable && membersWritable rest

end

def plain? (v : Json) : Option Text := if v.isWritable then some v.plain else none

end NeoListing.Json
