import DistDB.Decimal

/-!
Formatted input, as the standard streams and `std::stoul` read it: white space is skipped, then
comes a word, or a number that may have a sign.

`unsigned long` has 32 bits on one platform and 64 on another. A written number below 2^32 is
read back on each of them (`stoul_toText`).
-/

namespace DistDB.FormattedInput

open Decimal

/-- `isspace`. -/
def isSpace (c : UInt8) : Bool := c == 32 || (9 ≤ c && c ≤ 13)

/-- `stream >> word`, with what is left; it fails at the end of the text. -/
def word (s : Bytes) : Option (Bytes × Bytes) :=
  let s := s.dropWhile isSpace
  if s = [] then none
  else some (s.takeWhile fun c => !isSpace c, s.dropWhile fun c => !isSpace c)

structure Number where
  negative : Bool
  magnitude : ℕ
  rest : Bytes
  deriving DecidableEq

/-- A sign, if any, and digits. -/
def number (s : Bytes) : Option Number :=
  let s := s.dropWhile isSpace
  let digits := if s.head? = some (chr '-') ∨ s.head? = some (chr '+') then s.tail else s
  if digits.takeWhile isDigit = [] then none
  else some ⟨s.head? = some (chr '-'), value (digits.takeWhile isDigit),
    digits.dropWhile isDigit⟩

/-- A number in an unsigned type: a minus is taken modulo its range. -/
def Number.wrap (n : Number) (bits : ℕ) : ℕ :=
  if n.negative then (2 ^ bits - n.magnitude) % 2 ^ bits else n.magnitude

/-- `stream >> n` for an unsigned number, with what is left; one out of range fails. -/
def unsigned (bits : ℕ) (s : Bytes) : Option (ℕ × Bytes) :=
  match number s with
  | none => none
  | some n => if n.magnitude < 2 ^ bits then some (n.wrap bits, n.rest) else none

/-- The width of `unsigned long`. -/
structure Platform where
  ulong : ℕ
  wide : 32 ≤ ulong

lemma thirtyTwo_le : 32 ≤ 64 := by decide

inductive Thrown
  | runtimeError (what : Bytes)
  | invalidArgument
  | outOfRange
  deriving DecidableEq

/-- `std::stoul`. What stands behind the number is not looked at. -/
def stoul (p : Platform) (s : Bytes) : Except Thrown ℕ :=
  match number s with
  | none => .error .invalidArgument
  | some n => if n.magnitude < 2 ^ p.ulong then .ok (n.wrap p.ulong) else .error .outOfRange

lemma isDigit_not_space {c : UInt8} (h : isDigit c) : isSpace c = false ∧ c ≠ chr '-' ∧
    c ≠ chr '+' := by
  simp only [isDigit, isSpace, chr, Bool.and_eq_true, decide_eq_true_eq, UInt8.le_iff_toNat_le,
    ← UInt8.toNat_inj, Bool.or_eq_false_iff, beq_eq_false_iff_ne, ne_eq] at *
  simp only [UInt8.reduceToNat, UInt8.toNat_ofNat', Char.reduceToNat] at *
  refine ⟨⟨by omega, ?_⟩, by omega, by omega⟩
  simp only [Bool.and_eq_false_iff, decide_eq_false_iff_not]
  omega

/-- **A written number is read back**, and nothing behind it. -/
theorem number_toText (n : ℕ) {rest : Bytes} (hrest : rest.head?.all fun c => !isDigit c) :
    number (toText n ++ rest) = some ⟨false, n, rest⟩ := by
  obtain ⟨c, cs, hcs⟩ := List.exists_cons_of_ne_nil (toText_ne_nil n)
  have hall : ∀ d ∈ toText n, isDigit d := fun d => isDigit_toText
  obtain ⟨hspace, hminus, hplus⟩ := isDigit_not_space (hall c (by simp [hcs]))
  have hskip : (toText n ++ rest).dropWhile isSpace = toText n ++ rest := by
    simp [hcs, hspace]
  have htake : rest.takeWhile isDigit = [] ∧ rest.dropWhile isDigit = rest := by
    cases rest with
    | nil => simp
    | cons d rest => simp_all
  have hsign : (toText n ++ rest).head? = some c := by simp [hcs]
  have hdigits : (toText n ++ rest).takeWhile isDigit = toText n := by
    rw [List.takeWhile_append_of_pos hall, htake.1, List.append_nil]
  rw [number, hskip, hsign]
  simp only [Option.some.injEq, hminus, hplus, or_self, if_false, decide_false]
  rw [hdigits, List.dropWhile_append_of_pos hall, htake.2, value_toText,
    if_neg (toText_ne_nil n)]

/-- **A number of 32 bits is read back** on every platform. -/
theorem stoul_toText (p : Platform) {n : ℕ} (h : n < 2 ^ 32) : stoul p (toText n) = .ok n := by
  have hn : number (toText n ++ []) = some ⟨false, n, []⟩ := number_toText n (by simp)
  have hwide : 2 ^ 32 ≤ 2 ^ p.ulong := Nat.pow_le_pow_right (by omega) p.wide
  rw [List.append_nil] at hn
  simp only [stoul, hn]
  rw [if_pos (h.trans_le hwide)]
  rfl

end DistDB.FormattedInput
