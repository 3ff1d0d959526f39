import NeoListing.Contract.CallFlags
import NeoListing.Contract.ScriptHash
import NeoListing.Json.Display

/-! # Method tokens

A contract lists the methods of other contracts that it calls. Scripts refer to them by
their place in this list.
-/

namespace NeoListing

structure MethodToken where
  hash : ScriptHash
  /-- The name; a node may give any value for it. -/
  method : Json
  parameters : Int
  returns : Bool
  flags : Int
  deriving Repr

namespace MethodToken

def parametersText (t : MethodToken) : Option String :=
  (Text.decimal? t.parameters).map fun count =>
    count ++ " parameter" ++ (if t.parameters = 1 then "" else "s")

def returnText (t : MethodToken) : String :=
  (if t.returns then "has" else "does not have") ++ " return value"

def flagsText (t : MethodToken) : Option String :=
  (CallFlags.text t.flags).map (· ++ " call flags")

structure Parts where
  contract : Text
  method : Text
  parameters : String
  returns : String
  flags : String
  deriving DecidableEq, Repr

def parts? (t : MethodToken) : Option Parts := do
  let method ← t.method.plain?
  let parameters ← t.parametersText
  let flags ← t.flagsText
  return ⟨t.hash.contractName, method, parameters, t.returnText, flags⟩

def Parts.describe (p : Parts) : Text :=
  p.contract ++ "." ++ p.method ++ " (" ++ p.parameters ++ ", " ++ p.returns ++ ", " ++ p.flags
    ++ ")"

/-- A token on four lines, headed by the operand that refers to it. -/
def Parts.lines (index : Nat) (p : Parts) : List Text :=
  [Bytes.dashed (Bytes.ofNatLE 2 index) ++ ": " ++ p.contract ++ " " ++ p.method,
    "\t" ++ p.parameters, "\t" ++ p.returns, "\t" ++ p.flags]

inductive ListError where
  /-- More tokens than an operand can refer to. -/
  | tooMany (index : Nat)
  | tooManyDigits
  deriving DecidableEq, Repr

def ListError.message : ListError → String
  | .tooMany index => "token " ++ toString index ++ " cannot be referred to"
  | .tooManyDigits => Text.limitMessage ""

def listFrom (index : Nat) : List MethodToken → Except ListError (List Text)
  | [] => .ok []
  | t :: rest =>
    if 65536 ≤ index then .error (.tooMany index)
    else match t.parts? with
      | none => .error .tooManyDigits
      | some parts => (listFrom (index + 1) rest).map (parts.lines index ++ ·)

def list (tokens : List MethodToken) : Except ListError (List Text) :=
  if tokens.isEmpty then .ok ["No Method Tokens in contract"] else listFrom 0 tokens

end MethodToken

end NeoListing
