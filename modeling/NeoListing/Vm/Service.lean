import NeoListing.Digest.Sha256
import NeoListing.Table
import NeoListing.Text.Basic

/-! # Services of the host

A script calls a service by number: the first four bytes of the digest of its name, read
as a little-endian number.
-/

namespace NeoListing

abbrev ServiceTable := Table Int Text

namespace Service

/-- The name holds a character outside ASCII and so has no number. -/
structure NameError where
  name : Text
  deriving DecidableEq, Repr

def asciiBytes? (name : Text) : Option Bytes :=
  if name.all (·.toNat < 128) then some (name.map (fun p => UInt8.ofNat p.toNat)) else none

def number (name : Text) : Except NameError Nat :=
  match asciiBytes? name with
  | none => .error ⟨name⟩
  | some bytes => .ok (Bytes.natLE ((sha256 bytes).take 4))

def rows : List Text → Except NameError (List (Int × Text))
  | [] => .ok []
  | name :: rest => do
    let n ← number name
    return ((n : Int), name) :: (← rows rest)

/-- The table of the given names. Of names with one number the last counts. -/
def table (names : List Text) : Except NameError ServiceTable :=
  (rows names).map Table.ofRows

def names : List String :=
  ["System.Contract.Call",
    "System.Contract.CallNative",
    "System.Contract.CreateMultisigAccount",
    "System.Contract.CreateStandardAccount",
    "System.Contract.GetCallFlags",
    "System.Contract.NativeOnPersist",
    "System.Contract.NativePostPersist",
    "System.Crypto.CheckMultisig",
    "System.Crypto.CheckSig",
    "System.Iterator.Next",
    "System.Iterator.Value",
    "System.Runtime.BurnGas",
    "System.Runtime.CheckWitness",
    "System.Runtime.CurrentSigners",
    "System.Runtime.GasLeft",
    "System.Runtime.GetAddressVersion",
    "System.Runtime.GetCallingScriptHash",
    "System.Runtime.GetEntryScriptHash",
    "System.Runtime.GetExecutingScriptHash",
    "System.Runtime.GetInvocationCounter",
    "System.Runtime.GetNetwork",
    "System.Runtime.GetNotifications",
    "System.Runtime.GetRandom",
    "System.Runtime.GetScriptContainer",
    "System.Runtime.GetTime",
    "System.Runtime.GetTrigger",
    "System.Runtime.LoadScript",
    "System.Runtime.Log",
    "System.Runtime.Notify",
    "System.Runtime.Platform",
    "System.Storage.AsReadOnly",
    "System.Storage.Delete",
    "System.Storage.Find",
    "System.Storage.Get",
    "System.Storage.GetContext",
    "System.Storage.GetReadOnlyContext",
    "System.Storage.Put",
    "System.Storage.Local.Delete",
    "System.Storage.Local.Find",
    "System.Storage.Local.Get",
    "System.Storage.Local.Put"]

end Service

def ServiceTable.current : ServiceTable :=
  (Service.table (Service.names.map Text.ofString)).toOption.getD []

end NeoListing
