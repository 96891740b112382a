import Mathlib.Data.List.Lex
import Mathlib.Tactic.Linarith
import Mathlib.Tactic.Ring
import DistDB.OrdMap

/-!
Byte strings: their order, prefixes, and fixed-width little-endian numbers.

The order is the lexicographic one on unsigned bytes. The keys with a given prefix are
consecutive in an ascending list, which is what lets a scan stop at the first key without
the prefix (`scan_eq_filter`).
-/

namespace DistDB

abbrev Bytes := List UInt8

instance instLinearOrderUInt8 : LinearOrder UInt8 where
  le_refl := UInt8.le_refl
  le_trans _ _ _ := UInt8.le_trans
  lt_iff_le_not_ge a b := by
    simp only [UInt8.lt_iff_toNat_lt, UInt8.le_iff_toNat_le]; omega
  le_antisymm _ _ := UInt8.le_antisymm
  le_total a b := UInt8.le_total a b
  toDecidableLE := inferInstance
  toDecidableLT := inferInstance
  toDecidableEq := inferInstance

instance instLawfulBEqUInt8 : LawfulBEq UInt8 := inferInstance

namespace Bytes

/-- The `w` low bytes of `n`, lowest first. -/
def le : ℕ → ℕ → Bytes
  | 0, _ => []
  | w + 1, n => UInt8.ofNat n :: le w (n / 256)

/-- The number whose bytes are `bs`, lowest first. -/
def val : Bytes → ℕ
  | [] => 0
  | b :: bs => b.toNat + 256 * val bs

@[simp] lemma length_le (w n : ℕ) : (le w n).length = w := by
  induction w generalizing n with
  | zero => rfl
  | succ w ih => simp [le, ih]

lemma val_lt (bs : Bytes) : val bs < 256 ^ bs.length := by
  induction bs with
  | nil => simp [val]
  | cons b bs ih =>
    have hb : b.toNat < 256 := b.toNat_lt
    simp only [val, List.length_cons, pow_succ]
    omega

lemma val_le (w n : ℕ) : val (le w n) = n % 256 ^ w := by
  induction w generalizing n with
  | zero => simp [le, val, Nat.mod_one]
  | succ w ih =>
    have hlow : (UInt8.ofNat n).toNat = n % 256 := by simp
    calc val (le (w + 1) n) = n % 256 + 256 * (n / 256 % 256 ^ w) := by rw [le, val, ih, hlow]
      _ = n % (256 * 256 ^ w) := (Nat.mod_mul ..).symm
      _ = n % 256 ^ (w + 1) := by rw [pow_succ, Nat.mul_comm]

lemma val_le_of_lt {w n : ℕ} (h : n < 256 ^ w) : val (le w n) = n := by
  rw [val_le, Nat.mod_eq_of_lt h]

lemma le_val (bs : Bytes) : le bs.length (val bs) = bs := by
  induction bs with
  | nil => rfl
  | cons b bs ih =>
    have hb : b.toNat < 256 := b.toNat_lt
    have hdiv : (b.toNat + 256 * val bs) / 256 = val bs := by omega
    have hmod : UInt8.ofNat (b.toNat + 256 * val bs) = b := by
      apply UInt8.toNat_inj.mp
      simp only [UInt8.toNat_ofNat']
      omega
    simp only [List.length_cons, le, val, hdiv, ih, hmod]

/-! ### Prefixes and order -/

lemma prefix_le {p k : Bytes} (h : p <+: k) : p ≤ k := by
  obtain ⟨t, rfl⟩ := h
  induction p with
  | nil => exact not_lt.mp (List.not_lt_nil _)
  | cons b p ih =>
    refine not_lt.mp fun hlt => ?_
    rcases List.cons_lt_cons_iff.mp hlt with hbb | ⟨_, hlt'⟩
    · exact lt_irrefl b hbb
    · exact absurd ih (not_le_of_gt hlt')

lemma not_prefix_of_lt {p k k' : Bytes} (hpk : p ≤ k) (hk : ¬ p <+: k) (hlt : k < k') :
    ¬ p <+: k' := by
  rintro ⟨t, rfl⟩
  induction p generalizing k with
  | nil => exact hk List.nil_prefix
  | cons b p ih =>
    cases k with
    | nil => exact absurd hpk (by simp)
    | cons c k =>
      rw [List.cons_append] at hlt
      rcases List.cons_lt_cons_iff.mp hlt with hcb | ⟨rfl, hlt'⟩
      · have hbk : ¬ (b :: p) ≤ (c :: k) :=
          not_le_of_gt (List.cons_lt_cons_iff.mpr (Or.inl hcb))
        exact hbk hpk
      · refine ih (k := k) ?_ (fun hp => hk ((List.cons_prefix_cons).mpr ⟨rfl, hp⟩)) hlt'
        by_contra hgt
        exact absurd hpk
          (not_le_of_gt (List.cons_lt_cons_iff.mpr (Or.inr ⟨rfl, not_le.mp hgt⟩)))

/-- `StartsWith(s, prefix)`. -/
def startsWith (s p : Bytes) : Bool := p.isPrefixOf s

@[simp] lemma startsWith_iff (s p : Bytes) : startsWith s p = true ↔ p <+: s := by
  simp [startsWith]

variable {ν : Type*}

lemma takeWhile_eq_filter {p : Bytes} {l : List (Bytes × ν)} (hl : OrdMap.Asc l)
    (hp : ∀ e ∈ l, p ≤ e.1) :
    l.takeWhile (fun e => startsWith e.1 p) = l.filter (fun e => startsWith e.1 p) := by
  induction l with
  | nil => rfl
  | cons e l ih =>
    obtain ⟨hlt, hl'⟩ := List.pairwise_cons.mp hl
    by_cases he : startsWith e.1 p = true
    · rw [List.takeWhile_cons, List.filter_cons, if_pos he, if_pos he,
        ih hl' fun e he => hp e (by simp [he])]
    · rw [List.takeWhile_cons, List.filter_cons, if_neg he, if_neg he]
      have hnone : ∀ e' ∈ l, ¬ startsWith e'.1 p := by
        intro e' he'
        rw [startsWith_iff]
        exact not_prefix_of_lt (hp e (by simp)) (by simpa using he) (hlt e' he')
      exact (List.filter_eq_nil_iff.mpr fun e' he' => by simpa using hnone e' he').symm

/-- **A prefix scan is a filter**: from the first key not below `p`, as long as the keys
start with `p`. -/
theorem scan_eq_filter {p : Bytes} {l : List (Bytes × ν)} (hl : OrdMap.Asc l) :
    (l.dropWhile (fun e => decide (e.1 < p))).takeWhile (fun e => startsWith e.1 p) =
      l.filter (fun e => startsWith e.1 p) := by
  induction l with
  | nil => rfl
  | cons e l ih =>
    obtain ⟨hlt, hl'⟩ := List.pairwise_cons.mp hl
    by_cases he : e.1 < p
    · have hno : ¬ startsWith e.1 p := by
        rw [startsWith_iff]
        exact fun h => absurd (prefix_le h) (not_le_of_gt he)
      rw [List.dropWhile_cons, if_pos (by simpa using he), List.filter_cons, if_neg hno, ih hl']
    · rw [List.dropWhile_cons, if_neg (by simpa using he)]
      refine takeWhile_eq_filter hl fun e' he' => ?_
      rcases List.mem_cons.mp he' with rfl | he'
      · exact not_lt.mp he
      · exact (not_lt.mp he).trans (le_of_lt (hlt e' he'))

end Bytes

end DistDB
