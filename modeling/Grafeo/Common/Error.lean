import Grafeo.Lib.Bytes

/-!
# Grafeo.Common.Error

The errors of the storage crate (`grafeo-common/src/utils/error.rs`), those of them
that the modelled functions return, with their texts.
-/

namespace Grafeo.Common

open Lib

/-- What went wrong. Damage to a file has the byte it is at, when the reader knows it. -/
inductive Error where
  | serialization (message : String)
  | corruption (what : String) (offset : Option Nat)
  | io (message : String)
  | internal (message : String)
deriving Repr, DecidableEq

namespace Error

/-- Damage described by `what`, at byte `offset` of the file. -/
def corruptionAt (what : String) (offset : Nat) : Error := .corruption what (some offset)

/-- This error with `context` in front of its message. -/
def wrapped (context : String) : Error → Error
  | serialization message => .serialization s!"{context}: {message}"
  | corruption what offset => .corruption s!"{context}: {what}" offset
  | io message => .io s!"{context}: {message}"
  | internal message => .internal s!"{context}: {message}"

/-- This error, at byte `offset` of its file when it is damage that names no offset yet. -/
def atByte (offset : Nat) : Error → Error
  | corruption what none => .corruption what (some offset)
  | other => other

/-- The text of an error, behind its code. -/
def display : Error → String
  | serialization message => s!"GRAFEO-X002: Serialization error: {message}"
  | corruption what none => s!"GRAFEO-S002: the file is damaged: {what}"
  | corruption what (some offset) => s!"GRAFEO-S002: the file is damaged at byte {offset}: {what}"
  | io message => s!"GRAFEO-X003: I/O error: {message}"
  | internal message => s!"GRAFEO-X001: Internal error: {message}"

end Error

/-- A byte as `{:#04x}` writes it. -/
def hexByte (b : Byte) : String :=
  let digit (n : Nat) : Char := if n < 10 then Char.ofNat (48 + n) else Char.ofNat (87 + n)
  String.ofList ['0', 'x', digit (b.toNat / 16), digit (b.toNat % 16)]

example : hexByte 0x0c = "0x0c" := by decide

end Grafeo.Common
