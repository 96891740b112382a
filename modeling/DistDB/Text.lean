import DistDB.Bytes

/-!
Texts as byte strings, and the exceptions the code throws.
-/

namespace DistDB

/-- The bytes of an ASCII text. -/
def text (s : String) : Bytes := s.toList.map fun c => UInt8.ofNat c.toNat

/-- `std::to_string`. -/
def toText (n : ℕ) : Bytes := (Nat.toDigits 10 n).map fun c => UInt8.ofNat c.toNat

/-- A byte written as a character. -/
def chr (c : Char) : UInt8 := UInt8.ofNat c.toNat

inductive Exception
  | runtimeError (what : Bytes)
  /-- `std::stoll` finds no number. -/
  | invalidArgument
  /-- `std::stoll` finds a number that does not fit. -/
  | outOfRange
  /-- Not thrown by the code: an access outside a vector or to an empty optional. -/
  | undefined
  deriving DecidableEq

/-- `e.what()`, a C string: what stands behind a zero byte is lost. -/
def Exception.what : Exception → Bytes
  | .runtimeError what => what.takeWhile (· != 0)
  | .invalidArgument => text "stoll"
  | .outOfRange => text "stoll"
  | .undefined => text "undefined"

end DistDB
