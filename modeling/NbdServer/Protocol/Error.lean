import Mathlib

/-!
# Protocol errors

Model of `nbd-protocol/src/error.rs`: the variants that the modelled parsers and encoders build.
-/

namespace NbdServer

/-- Rust `ProtocolError`. -/
inductive ProtocolError where
  | unexpectedEof (needed remaining : Nat)
  | trailingBytes (remaining : Nat)
  | invalidMagic (context : String) (expected actual : Nat)
  | invalidUtf8 (field : String)
  | invalidString (field reason : String)
  | lengthTooLarge (field : String) (len max : Nat)
  | unsupportedCommandFlags (raw : UInt16)
  | unsupportedCommand (command : UInt16)
  | invalidRequest (command reason : String)
  | invalidReply (reply reason : String)
  | lengthOverflow (offset : UInt64) (length : UInt32)
  deriving DecidableEq, Repr

/-- The result of a function of `nbd-protocol`. -/
abbrev Parsed (α : Type) := Except ProtocolError α

end NbdServer
