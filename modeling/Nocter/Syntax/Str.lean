import Mathlib.Data.List.Basic

/-!
# Texts

A text is the list of its bytes. It lies in memory, so its length is an `isize`.
-/

namespace Nocter.Syntax

abbrev Bytes := List UInt8

structure Str where
  bytes : Bytes
  size : bytes.length ≤ 9223372036854775807
  deriving DecidableEq

namespace Str

def take (text : Str) (count : ℕ) : Str :=
  ⟨text.bytes.take count, Nat.le_trans (List.length_take_le' _ _) text.size⟩

def drop (text : Str) (count : ℕ) : Str :=
  ⟨text.bytes.drop count, Nat.le_trans (List.drop_sublist _ _).length_le text.size⟩

def isEmpty (text : Str) : Bool := text.bytes.isEmpty

def contains (text : Str) (wanted : UInt8 → Bool) : Bool := text.bytes.any wanted

/-- `find` of an ASCII byte. -/
def find (text : Str) (wanted : UInt8 → Bool) : Option ℕ := text.bytes.findIdx? wanted

/-- `strip_prefix` of one of some ASCII bytes. -/
def stripFirst (text : Str) (wanted : UInt8 → Bool) : Option Str :=
  match text.bytes with
  | [] => none
  | first :: _ => if wanted first then some (text.drop 1) else none

def stripSuffix (text : Str) (suffix : Bytes) : Option Str :=
  if suffix <:+ text.bytes then some (text.take (text.bytes.length - suffix.length)) else none

/-- `split_once` at an ASCII byte. -/
def splitOnce (text : Str) (wanted : UInt8 → Bool) : Option (Str × Str) :=
  (text.find wanted).map fun index => (text.take index, text.drop (index + 1))

end Str

def isAsciiDigit (byte : UInt8) : Bool := 48 ≤ byte && byte ≤ 57

end Nocter.Syntax
