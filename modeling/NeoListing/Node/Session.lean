import NeoListing.Node.Answer
import NeoListing.Table

/-! # Sessions with nodes

States that were fetched are kept, the latest used first, and up to a fixed number. A
request that fails leaves nothing behind.
-/

namespace NeoListing.Node

structure Key where
  contract : Text
  url : Text
  deriving DecidableEq, Repr

structure Post where
  url : Text
  payload : Json
  /-- Seconds to wait for an answer. -/
  timeout : Nat

def Post.forState (key : Key) : Post :=
  ⟨key.url, .object [("jsonrpc", .text "2.0"), ("method", .text "getcontractstate"),
    ("params", .array [.text key.contract]), ("id", .int 1)], 10⟩

/-- What a client makes of one request. -/
abbrev Exchange := Post → Response

/-- States that were fetched, the latest used first. -/
abbrev Cache := Table Key Json

def capacity : Nat := 256

structure Session where
  cache : Cache
  /-- What the next requests will come to. -/
  exchanges : List Exchange
  /-- The requests sent so far. -/
  posts : List Post

namespace Session

def new (exchanges : List Exchange) : Session := ⟨[], exchanges, []⟩

def next (s : Session) (post : Post) : Response :=
  match s.exchanges with
  | exchange :: _ => exchange post
  | [] => .refused "no response queued"

def clear (s : Session) : Session := ⟨[], s.exchanges, s.posts⟩

def remember (cache : Cache) (key : Key) (state : Json) : Cache :=
  ((key, state) :: cache.filter (fun row => row.1 != key)).take capacity

def contractState (s : Session) (key : Key) : Except Error Json × Session :=
  match s.cache.get? key with
  | some state => (.ok state, ⟨remember s.cache key state, s.exchanges, s.posts⟩)
  | none =>
    let post := Post.forState key
    match stateOf (s.next post) with
    | .ok state =>
      (.ok state, ⟨remember s.cache key state, s.exchanges.drop 1, s.posts ++ [post]⟩)
    | .error e => (.error e, ⟨s.cache, s.exchanges.drop 1, s.posts ++ [post]⟩)

end Session

end NeoListing.Node
