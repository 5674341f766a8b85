import WpiUtil.Foundations.Decimal
import WpiUtil.Support.Cstdlib

/-!
# The exceptions of the class `json`
-/

namespace Wpi

/-- `std::to_string`. -/
def decimal (n : Nat) : List Byte := Foundations.decimal n

inductive ExceptionType where
  | parseError
  | typeError
  | outOfRange
deriving DecidableEq, Repr

/-- An exception: `byte` is the position of a `parse_error` and zero in the others. -/
structure JsonException where
  type : ExceptionType
  id : Nat
  byte : Nat
  what : List Byte
deriving DecidableEq

namespace JsonException

/-- `exception::name`. -/
def name (ename : List Byte) (id : Nat) : List Byte :=
  bytes "[json.exception." ++ ename ++ bytes "." ++ decimal id ++ bytes "] "

end JsonException

/-- `parse_error::create`. -/
def parseError (id byte : Nat) (whatArg : List Byte) : JsonException where
  type := .parseError
  id := id
  byte := byte
  what := JsonException.name (bytes "parse_error") id ++ bytes "parse error" ++
    (if byte ≠ 0 then bytes " at " ++ decimal byte else []) ++ bytes ": " ++ whatArg

/-- `type_error::create`. -/
def typeError (id : Nat) (whatArg : List Byte) : JsonException where
  type := .typeError
  id := id
  byte := 0
  what := JsonException.name (bytes "type_error") id ++ whatArg

/-- `out_of_range::create`. -/
def outOfRange (id : Nat) (whatArg : List Byte) : JsonException where
  type := .outOfRange
  id := id
  byte := 0
  what := JsonException.name (bytes "out_of_range") id ++ whatArg

/-- `llvm::format_hex(n, 2)`: the hexadecimal digits of `n`, none for zero, after `0x`. -/
def formatHex (n : Nat) : List Byte :=
  bytes "0x" ++ if n = 0 then [] else (Nat.toDigits 16 n).map fun c => UInt8.ofNat c.toNat

/-- Why an operation stops without a value: it throws, its behaviour is undefined, or the bound on
the number of rounds given to the model is used up. -/
inductive Failure where
  | thrown (e : JsonException)
  | std (e : StdException)
  | undefined
  | outOfFuel
deriving DecidableEq

def Failure.isException : Failure → Bool
  | thrown _ => true
  | std _ => true
  | undefined => false
  | outOfFuel => false

end Wpi
