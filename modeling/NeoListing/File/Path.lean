import NeoListing.Text.Quoted
import NeoListing.Text.Split

/-! # Paths

A path is a root and the names below it. Empty names and single dots are dropped when a
path is read. Exactly two slashes in front are a root of their own.
-/

namespace NeoListing

structure Path where
  root : Text
  parts : List Text
  deriving DecidableEq, Repr

namespace Path

def rootOf : Nat → Text
  | 0 => []
  | 2 => "//"
  | _ => "/"

def ofText (t : Text) : Path :=
  ⟨rootOf (t.takeWhile (· == .scalar '/')).length,
    (Text.pieces (.scalar '/') t).filter (fun n => !n.isEmpty && n != ".")⟩

def text (p : Path) : Text :=
  if p.root = [] ∧ p.parts.isEmpty then "." else p.root ++ ("/" : Text).intercalate p.parts

/-- A path seen from another; one with a root stays as it is. -/
def join (base p : Path) : Path :=
  if p.root = [] then ⟨base.root, base.parts ++ p.parts⟩ else p

def name (p : Path) : Text := p.parts.getLast?.getD []

structure EmptyName where
  path : Path
  deriving DecidableEq, Repr

def EmptyName.message (e : EmptyName) : String :=
  "PosixPath(" ++ Text.quoted e.path.text ++ ") has an empty name"

/-- A name without its suffix: the part from the last dot on, unless that dot is the first
or the last character. -/
def stem (name : Text) : Text :=
  let reversed := name.reverse
  let suffix := reversed.takeWhile (· != .scalar '.')
  let before := (reversed.dropWhile (· != .scalar '.')).drop 1
  if suffix.isEmpty || before.isEmpty then name else before.reverse

def withSuffix (p : Path) (suffix : String) : Except EmptyName Path :=
  if p.name = [] then .error ⟨p⟩
  else .ok ⟨p.root, p.parts.dropLast ++ [stem p.name ++ suffix]⟩

end Path

end NeoListing
