import NeoListing.Hex
import NeoListing.Table

/-! # Script hashes

A contract is identified by twenty bytes. They are stored least significant first and
shown the other way round.
-/

namespace NeoListing

structure ScriptHash where
  bytes : Bytes
  length_eq : bytes.length = 20
  deriving DecidableEq, Repr

namespace ScriptHash

inductive Error where
  | wrongLength (length : Nat)
  | notHex (e : Hex.Error)
  deriving DecidableEq, Repr

def Error.message : Error → String
  | .wrongLength length => "UInt160 requires 20 bytes, got " ++ toString length
  | .notHex e => e.message

def ofBytes (bytes : Bytes) : Except Error ScriptHash :=
  if h : bytes.length = 20 then .ok ⟨bytes, h⟩ else .error (.wrongLength bytes.length)

def dropHexMark : Text → Option Text
  | .scalar '0' :: .scalar 'x' :: rest => some rest
  | .scalar '0' :: .scalar 'X' :: rest => some rest
  | _ => none

/-- Reads the form that is shown; the mark in front may be missing. -/
def parse (text : Text) : Except Error ScriptHash :=
  match Hex.decode ((dropHexMark text).getD text) with
  | .ok bytes => ofBytes bytes.reverse
  | .error e => .error (.notHex e)

def text (h : ScriptHash) : String := "0x" ++ Bytes.hex h.bytes.reverse

def natives : Table String String :=
  [("0xfffdc93764dbaddd97c48f252a53ea4643faa3fd", "ContractManagement"),
    ("0xacce6fd80d44e1796aa0c2c625e9e4e0ce39efc0", "StdLib"),
    ("0x726cb6e0cd8628a1350a611384688911ab75f51b", "CryptoLib"),
    ("0xda65b600f7124ce6c79950c1772a36403104f2be", "LedgerContract"),
    ("0xef4073a0f2b305a38ec4050e4d3d28bc40ea63f5", "NeoToken"),
    ("0xd2a4cff31913016155e38e474a2c06d08be276cf", "GasToken"),
    ("0xcc5e4edd9f5f8dba8bb65734541df7a1c081c67b", "PolicyContract"),
    ("0x49cf4e5378ffcd4dec034fd98a174c5491e395e2", "RoleManagement"),
    ("0xfe924b7cfe89ddd271abaf7210a80a7e11178758", "OracleContract"),
    ("0xc1e14f19c3e60d0b9244d06dd7ba9b113135ec3b", "Notary")]

/-- The name of a native contract; any other goes by its hash. -/
def contractName (h : ScriptHash) : String :=
  (natives.get? h.text).getD h.text

end ScriptHash

end NeoListing
