import NeoListing.Base64
import NeoListing.Contract.Manifest
import NeoListing.Contract.MethodToken

/-! # Contracts

What a listing needs of a contract, and how it is found in the state that a node keeps of
a deployed contract.
-/

namespace NeoListing

structure Contract where
  script : Bytes
  tokens : List MethodToken
  /-- The file that the contract was read from. -/
  path : Option Path
  methodNames : Table Int Text
  deriving Repr

namespace Contract

inductive StateError where
  /-- The state has no contract file in it. -/
  | noNef (e : Json.ShapeError)
  | shape (e : Json.ShapeError)
  | script (e : Base64.Error)
  | scriptNotText (kind : String)
  | hash (e : ScriptHash.Error)
  | flags (e : CallFlags.UnknownFlag)
  deriving DecidableEq, Repr

def StateError.reason : StateError → Text
  | .noNef e => e.message
  | .shape e => e.message
  | .script e => e.message
  | .scriptNotText kind =>
    "argument should be a bytes-like object or ASCII string, not '" ++ kind ++ "'"
  | .hash e => e.message
  | .flags e => e.message

def StateError.isMalformed : StateError → Bool
  | .noNef _ => false
  | .shape (.noOperation _ _) => false
  | .shape .infinite => false
  | _ => true

def StateError.message (e : StateError) : Text :=
  if e.isMalformed then "Malformed contract state: " ++ e.reason else e.reason

def shaped {α : Type} (r : Except Json.ShapeError α) : Except StateError α :=
  match r with
  | .ok v => .ok v
  | .error e => .error (.shape e)

def readScript : Json → Except StateError Bytes
  | .text s =>
    match Base64.decode s with
    | .ok bytes => .ok bytes
    | .error e => .error (.script e)
  | v => .error (.scriptNotText v.kind)

def readHash : Json → Except StateError ScriptHash
  | .text s =>
    match ScriptHash.parse s with
    | .ok hash => .ok hash
    | .error e => .error (.hash e)
  | v => .error (.shape (.noOperation v.kind "startswith"))

def readFlags : Json → Except StateError Nat
  | .text s =>
    match CallFlags.parse s with
    | .ok flags => .ok flags
    | .error e => .error (.flags e)
  | v => .error (.shape (.noOperation v.kind "split"))

def readToken (v : Json) : Except StateError MethodToken := do
  let hash ← readHash (← shaped (v.member "hash"))
  let method ← shaped (v.member "method")
  let parameters ← shaped ((← shaped (v.member "paramcount")).toInt)
  let returns ← shaped (v.member "hasreturnvalue")
  let flags ← readFlags (← shaped (v.member "callflags"))
  return ⟨hash, method, parameters, returns.isTruthy, flags⟩

def readTokens : List Json → Except StateError (List MethodToken)
  | [] => .ok []
  | v :: rest => do
    let t ← readToken v
    return t :: (← readTokens rest)

/-- The manifest of a state; one that counts as absent is empty. -/
def manifestOf (state : Json) : Json :=
  match state.member? "manifest" with
  | some m => if m.isTruthy then m else .object []
  | none => .object []

def ofState (state : Json) : Except StateError Contract :=
  match state.member "nef" with
  | .error e => .error (.noNef e)
  | .ok nef => do
    let script ← readScript (← shaped (nef.member "script"))
    let tokens ← shaped (nef.memberOr "tokens" (.array []))
    let tokens ← readTokens (← shaped tokens.items)
    let methodNames ← shaped (Manifest.starts (manifestOf state))
    return ⟨script, tokens, none, methodNames⟩

end Contract

end NeoListing
