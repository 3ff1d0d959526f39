import NeoListing.Json.Shape

/-! # Answers of a node

A node is asked for the state of a contract and answers with an object that holds either a
result or an error. How requests are sent and answers decoded is the business of a client; here
it is what the client says that counts.
-/

namespace NeoListing.Node

/-- JSON as a client reads it: an integer comes from digits that are not too many, so that it can
be written again. -/
structure Answer where
  value : Json
  isWritable : value.isWritable = true

inductive Response where
  /-- The request failed, or its status says that it did. -/
  | refused (reason : Text)
  /-- The body of the answer is no JSON. -/
  | undecodable (reason : Text)
  /-- The client itself came to grief, by a fault of some other kind. -/
  | broken (kind : String)
  | answered (answer : Answer)

inductive Error where
  | requestFailed (reason : Text)
  | invalidJson (reason : Text)
  | reported (message code : Json)
  | nullResult
  | noNef
  | broken (kind : String)
  /-- An answer that is not even shaped like one. -/
  | unshaped (e : Json.ShapeError)
  deriving Repr

def Error.message : Error → Text
  | .requestFailed reason => "RPC request failed: " ++ reason
  | .invalidJson reason => "RPC returned invalid JSON: " ++ reason
  | .reported message _ => "RPC error: " ++ message.plain
  | .nullResult => "RPC returned null result"
  | .noNef => "RPC returned a contract state without a NEF"
  | .broken kind => kind
  | .unshaped e => e.message

def Error.code : Error → Json
  | .reported _ code => code
  | _ => .null

def occursIn (needle : Text) : Text → Bool
  | [] => needle.isEmpty
  | c :: rest => needle.isPrefixOf (c :: rest) || occursIn needle rest

def isText (s : Text) : Json → Bool
  | .text t => t == s
  | _ => false

def mentionsError : Json → Except Json.ShapeError Bool
  | .object members => .ok (Json.find? members "error").isSome
  | .array items => .ok (items.any (isText "error"))
  | .text s => .ok (occursIn "error" s)
  | v => .error (.noItems v.kind)

def reportedError (e : Json) : Error :=
  match e with
  | .object members =>
    .reported ((Json.find? members "message").getD (.text "unknown"))
      ((Json.find? members "code").getD .null)
  | v => .unshaped (.noOperation v.kind "get")

def result (answer : Json) : Except Error Json :=
  match mentionsError answer with
  | .error e => .error (.unshaped e)
  | .ok true =>
    match answer.member "error" with
    | .error e => .error (.unshaped e)
    | .ok e => .error (reportedError e)
  | .ok false =>
    match answer.memberOr "result" .null with
    | .error e => .error (.unshaped e)
    | .ok .null => .error .nullResult
    | .ok v => .ok v

def stateIn (answer : Json) : Except Error Json := do
  let state ← result answer
  match state.member? "nef" with
  | some _ => return state
  | none => throw .noNef

def stateOf : Response → Except Error Json
  | .refused reason => .error (.requestFailed reason)
  | .undecodable reason => .error (.invalidJson reason)
  | .broken kind => .error (.broken kind)
  | .answered answer => stateIn answer.value

end NeoListing.Node
