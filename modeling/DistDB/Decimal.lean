import DistDB.Text

/-!
Decimal numbers: the value of a string of digits, and the digits of a number, which are read
back as that number (`value_toText`).
-/

namespace DistDB.Decimal

def isDigit (c : UInt8) : Bool := 48 ≤ c && c ≤ 57

/-- The value of a string of digits. -/
def value (s : Bytes) : ℕ := s.foldl (fun n c => 10 * n + (c.toNat - 48)) 0

lemma toNat_digit {c : Char} (h : c.isDigit) :
    48 ≤ c.toNat ∧ c.toNat ≤ 57 ∧ (UInt8.ofNat c.toNat).toNat = c.toNat := by
  simp only [Char.isDigit, Bool.and_eq_true, decide_eq_true_eq, UInt32.le_iff_toNat_le] at h
  have h48 : 48 ≤ c.toNat := h.1
  have h57 : c.toNat ≤ 57 := h.2
  refine ⟨h48, h57, ?_⟩
  rw [UInt8.toNat_ofNat']
  omega

lemma value_toText (n : ℕ) : value (toText n) = n := by
  have hmap : ∀ (l : List Char), (∀ c ∈ l, c.isDigit) → ∀ k,
      (l.map fun c => UInt8.ofNat c.toNat).foldl (fun n c => 10 * n + (c.toNat - 48)) k =
        Nat.ofDigitChars 10 l k := by
    intro l
    induction l with
    | nil => simp
    | cons c l ih =>
      intro hl k
      obtain ⟨hc, hl⟩ := List.forall_mem_cons.mp hl
      rw [List.map_cons, List.foldl_cons, ih hl, Nat.ofDigitChars_cons, (toNat_digit hc).2.2]
      rfl
  rw [value, toText, hmap _ fun c => Nat.isDigit_of_mem_toDigits (by omega) (by omega)]
  exact Nat.ofDigitChars_ten_toDigits

lemma isDigit_toText {n : ℕ} {c : UInt8} (h : c ∈ toText n) : isDigit c := by
  obtain ⟨d, hd, rfl⟩ := List.mem_map.mp h
  obtain ⟨h48, h57, hcode⟩ := toNat_digit (Nat.isDigit_of_mem_toDigits (by omega) (by omega) hd)
  simp only [isDigit, Bool.and_eq_true, decide_eq_true_eq, UInt8.le_iff_toNat_le, hcode]
  exact ⟨h48, h57⟩

@[simp] lemma toText_ne_nil (n : ℕ) : toText n ≠ [] := by
  simp [toText]

end DistDB.Decimal
