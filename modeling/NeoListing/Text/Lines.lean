import NeoListing.Text.Utf8

/-! # Lines

Text files are read with every line ending turned into a line feed. A source file is
then cut at each line boundary, of which the line feed is only one.
-/

namespace NeoListing.Text

def unifyNewlines : List Char → List Char
  | [] => []
  | '\r' :: '\n' :: rest => '\n' :: unifyNewlines rest
  | c :: rest => (if c = '\r' then '\n' else c) :: unifyNewlines rest

def isLineBoundary (c : Char) : Bool :=
  let n := c.toNat
  (0x0A ≤ n && n ≤ 0x0D) || (0x1C ≤ n && n ≤ 0x1E) || n == 0x85 || n == 0x2028 || n == 0x2029

/-- Cuts at line boundaries; `line` holds the characters of the current line, last first.
A boundary at the very end opens no further line. -/
def cutLines (line : List Char) : List Char → List String
  | [] => if line.isEmpty then [] else [String.ofList line.reverse]
  | '\r' :: '\n' :: rest => String.ofList line.reverse :: cutLines [] rest
  | c :: rest =>
    if isLineBoundary c then String.ofList line.reverse :: cutLines [] rest
    else cutLines (c :: line) rest

def splitLines (cs : List Char) : List String := cutLines [] cs

def byteOrderMark : Bytes := [0xEF, 0xBB, 0xBF]

/-- Content after a leading byte order mark. Content that is only the start of a mark
counts as an unfinished mark and holds nothing. -/
def dropMark (content : Bytes) : Bytes :=
  if content.length < 3 ∧ content.isPrefixOf byteOrderMark then []
  else if byteOrderMark.isPrefixOf content then content.drop 3
  else content

def sourceLines (content : Bytes) : List String :=
  splitLines (unifyNewlines (Utf8.decodeLossy (dropMark content)))

def fileText (content : Bytes) : Except Utf8.Error String :=
  (Utf8.decodeFrom 0 content).map (fun cs => String.ofList (unifyNewlines cs))

end NeoListing.Text
