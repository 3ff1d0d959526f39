import NeoListing.Text.Integer

/-! # Types of stack items

Some operands are the code of a stack item type.
-/

namespace NeoListing

inductive ItemType where
  | any
  | pointer
  | boolean
  | integer
  | byteString
  | buffer
  | array
  | struct
  | map
  | interopInterface
  deriving DecidableEq, Repr

namespace ItemType

def all : List ItemType :=
  [any, pointer, boolean, integer, byteString, buffer, array, struct, map, interopInterface]

def code : ItemType → Nat
  | any => 0x00
  | pointer => 0x10
  | boolean => 0x20
  | integer => 0x21
  | byteString => 0x28
  | buffer => 0x30
  | array => 0x40
  | struct => 0x41
  | map => 0x48
  | interopInterface => 0x60

def name : ItemType → String
  | any => "Any"
  | pointer => "Pointer"
  | boolean => "Boolean"
  | integer => "Integer"
  | byteString => "ByteString"
  | buffer => "Buffer"
  | array => "Array"
  | struct => "Struct"
  | map => "Map"
  | interopInterface => "InteropInterface"

def ofCode? (n : Int) : Option ItemType :=
  all.find? (fun t => (t.code : Int) == n)

/-- The name of the type with a code; other codes stand for themselves, if they can be written. -/
def label (n : Int) : Option String :=
  match ofCode? n with
  | some t => some t.name
  | none => Text.decimal? n

end ItemType

end NeoListing
