import NeoListing.Text.Basic
import NeoListing.Text.Split

/-! # File names of documents

Documents are named by the machine that compiled them, so both kinds of slash divide a
path, and a drive, a share or an extended form may stand in front. None of these counts as
part of the file name.
-/

namespace NeoListing.DocumentName

def isDriveLetter (c : Char) : Bool :=
  ('a' ≤ c && c ≤ 'z') || ('A' ≤ c && c ≤ 'Z')

def slash : CodePoint := .scalar '\\'

def dropDrive : Text → Text
  | c :: .scalar ':' :: rest => if c.isIn isDriveLetter then rest else c :: .scalar ':' :: rest
  | t => t

def extendedMark : Text := "\\\\?\\"

def extendedShareMark : Text := "\\\\?\\UNC\\"

/-- What follows the extended form; a share in that form begins with a single slash. -/
def dropExtended (t : Text) : Text :=
  if extendedShareMark.isPrefixOf t then slash :: slash :: t.drop extendedShareMark.length
  else if extendedMark.isPrefixOf t then t.drop extendedMark.length
  else t

/-- What follows a machine and a share on it. There must be a share, and nothing may stand
between the two but one slash. -/
def dropShare? : Text → Option Text
  | .scalar '\\' :: .scalar '\\' :: c :: rest =>
    if c = slash then none
    else match (c :: rest).dropWhile (· != slash) with
      | [] => none
      | _ :: .scalar '\\' :: _ => none
      | _ :: afterMachine => some ((afterMachine.dropWhile (· != slash)).drop 1)
  | _ => none

def relative (t : Text) : Text :=
  let t := dropExtended t
  (dropShare? t).getD (dropDrive t)

def ofPath (path : Text) : Text :=
  let t := path.map (fun p => if p = .scalar '/' then slash else p)
  let names := Text.pieces slash (relative t)
  ((names.filter (fun (n : Text) => !n.isEmpty && n != ".")).getLast?).getD []

end NeoListing.DocumentName
