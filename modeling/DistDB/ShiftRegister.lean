import Mathlib.Data.List.Induction
import Mathlib.Tactic.Lemma

/-!
Reflected cyclic redundancy checks of any width: a register that is fed bits, lowest bit first.

The register is linear (`feed_xor`), so that several bits can be looked up in a table at once
(`turn_split`). If the polynomial has its highest coefficient, nothing that is fed is forgotten: a
register can be traced back (`feedAll_injective`), and two words that are not longer than it leave
it different (`feedAll_word_injective`).
-/

namespace DistDB.ShiftRegister

variable {w : ℕ} (poly : BitVec w)

/-- The register moves down, and takes the polynomial up if the bit that falls out of it is not the
bit that is fed. -/
def feed (c : BitVec w) (b : Bool) : BitVec w :=
  if c.getLsbD 0 ^^ b then (c >>> 1) ^^^ poly else c >>> 1

def feedAll (c : BitVec w) (bits : List Bool) : BitVec w := bits.foldl (feed poly) c

/-- So many zeros. -/
def turn : ℕ → BitVec w → BitVec w
  | 0, c => c
  | n + 1, c => turn n (feed poly c false)

@[simp] lemma feedAll_nil (c : BitVec w) : feedAll poly c [] = c := rfl

@[simp] lemma feedAll_cons (c : BitVec w) (b : Bool) (bits : List Bool) :
    feedAll poly c (b :: bits) = feedAll poly (feed poly c b) bits := rfl

lemma feedAll_append (c : BitVec w) (bits bits' : List Bool) :
    feedAll poly c (bits ++ bits') = feedAll poly (feedAll poly c bits) bits' :=
  List.foldl_append

/-! ### Linearity -/

lemma feed_xor (c d : BitVec w) (a b : Bool) :
    feed poly (c ^^^ d) (a ^^ b) = feed poly c a ^^^ feed poly d b := by
  have hbit : ((c.getLsbD 0 ^^ d.getLsbD 0) ^^ (a ^^ b)) =
      ((c.getLsbD 0 ^^ a) ^^ (d.getLsbD 0 ^^ b)) := by
    cases c.getLsbD 0 <;> cases d.getLsbD 0 <;> cases a <;> cases b <;> rfl
  unfold feed
  rw [BitVec.getLsbD_xor, hbit, BitVec.ushiftRight_xor_distrib]
  cases c.getLsbD 0 ^^ a with
  | false =>
    cases d.getLsbD 0 ^^ b with
    | false => rfl
    | true => exact BitVec.xor_assoc _ _ _
  | true =>
    cases d.getLsbD 0 ^^ b with
    | false =>
      show (c >>> 1 ^^^ d >>> 1) ^^^ poly = (c >>> 1 ^^^ poly) ^^^ d >>> 1
      ac_rfl
    | true =>
      show c >>> 1 ^^^ d >>> 1 = (c >>> 1 ^^^ poly) ^^^ (d >>> 1 ^^^ poly)
      rw [BitVec.xor_comm (d >>> 1), BitVec.xor_assoc, ← BitVec.xor_assoc poly, BitVec.xor_self,
        BitVec.zero_xor]

lemma turn_xor (n : ℕ) (c d : BitVec w) :
    turn poly n (c ^^^ d) = turn poly n c ^^^ turn poly n d := by
  induction n generalizing c d with
  | zero => rfl
  | succ n ih =>
    have hfeed := feed_xor poly c d false false
    rw [Bool.xor_false] at hfeed
    calc turn poly (n + 1) (c ^^^ d)
        = turn poly n (feed poly c false ^^^ feed poly d false) := congrArg (turn poly n) hfeed
      _ = turn poly (n + 1) c ^^^ turn poly (n + 1) d := ih ..

lemma turn_high {n : ℕ} {c : BitVec w} (h : ∀ i < n, c.getLsbD i = false) :
    turn poly n c = c >>> n := by
  induction n generalizing c with
  | zero => simp [turn]
  | succ n ih =>
    have hfeed : feed poly c false = c >>> 1 := by
      rw [feed, h 0 n.succ_pos]
      rfl
    rw [turn, hfeed, ih fun i hi => ?_, ← BitVec.shiftRight_add, Nat.add_comm]
    rw [BitVec.getLsbD_ushiftRight]
    exact h _ (by omega)

/-- **The table step**: the low bits are looked up, and the others move down. -/
lemma turn_split (n : ℕ) (c mask : BitVec w)
    (hmask : ∀ i < w, mask.getLsbD i = decide (i < n)) :
    turn poly n c = turn poly n (c &&& mask) ^^^ (c >>> n) := by
  have hsplit : c = (c &&& mask) ^^^ (c &&& ~~~mask) := by
    apply BitVec.eq_of_getLsbD_eq
    intro i hi
    simp only [BitVec.getLsbD_xor, BitVec.getLsbD_and, BitVec.getLsbD_not, hi, decide_true,
      Bool.true_and]
    cases c.getLsbD i <;> cases mask.getLsbD i <;> rfl
  have hclear : ∀ i < n, (c &&& ~~~mask).getLsbD i = false := by
    intro i hi
    by_cases hw : i < w
    · rw [BitVec.getLsbD_and, BitVec.getLsbD_not, hmask i hw, decide_eq_true hi]
      simp
    · exact BitVec.getLsbD_of_ge _ _ (by omega)
  have hhigh : (c &&& ~~~mask) >>> n = c >>> n := by
    apply BitVec.eq_of_getLsbD_eq
    intro i _
    rw [BitVec.getLsbD_ushiftRight, BitVec.getLsbD_ushiftRight, BitVec.getLsbD_and,
      BitVec.getLsbD_not]
    by_cases hw : n + i < w
    · rw [hmask _ hw]
      simp [hw]
    · rw [BitVec.getLsbD_of_ge c _ (by omega)]
      simp
  calc turn poly n c = turn poly n ((c &&& mask) ^^^ (c &&& ~~~mask)) := congrArg _ hsplit
    _ = turn poly n (c &&& mask) ^^^ turn poly n (c &&& ~~~mask) := turn_xor ..
    _ = turn poly n (c &&& mask) ^^^ (c >>> n) := by rw [turn_high poly hclear, hhigh]

lemma feedAll_eq_turn {c x : BitVec w} {bits : List Bool}
    (hx : ∀ i, x.getLsbD i = bits.getD i false) :
    feedAll poly c bits = turn poly bits.length (c ^^^ x) := by
  induction bits generalizing c x with
  | nil =>
    have hzero : x = 0#w := by
      apply BitVec.eq_of_getLsbD_eq
      intro i _
      rw [hx i, BitVec.getLsbD_zero]
      rfl
    rw [hzero, BitVec.xor_zero]
    rfl
  | cons b bits ih =>
    have hrest : ∀ i, (x >>> 1).getLsbD i = bits.getD i false := by
      intro i
      rw [BitVec.getLsbD_ushiftRight, hx, Nat.add_comm, List.getD_cons_succ]
    have hfirst : feed poly x b = x >>> 1 := by
      rw [feed, hx 0, List.getD_cons_zero, Bool.xor_self]
      rfl
    have hfeed := feed_xor poly c x b b
    rw [Bool.xor_self, hfirst] at hfeed
    calc feedAll poly c (b :: bits)
        = turn poly bits.length (feed poly c b ^^^ (x >>> 1)) := by rw [feedAll_cons, ih hrest]
      _ = turn poly bits.length (feed poly (c ^^^ x) false) := by rw [hfeed]
      _ = turn poly (b :: bits).length (c ^^^ x) := rfl

section

variable {poly}

lemma feed_top (hpoly : poly.getLsbD (w - 1) = true) (c : BitVec w) (b : Bool) :
    (feed poly c b).getLsbD (w - 1) = (c.getLsbD 0 ^^ b) := by
  have hpos : 0 < w := by
    by_contra hw
    rw [BitVec.getLsbD_of_ge poly _ (by omega)] at hpoly
    cases hpoly
  have hshift : (c >>> 1).getLsbD (w - 1) = false := by
    rw [BitVec.getLsbD_ushiftRight]
    exact BitVec.getLsbD_of_ge _ _ (by omega)
  unfold feed
  split
  case isTrue h => rw [BitVec.getLsbD_xor, hshift, hpoly, h]; rfl
  case isFalse h => rw [hshift]; simpa using h

/-- Two registers that look alike from bit `j` on did so from bit `j + 1` on, and the same fell out
of them but for the bits that were fed. -/
lemma feed_back (hpoly : poly.getLsbD (w - 1) = true) {c d : BitVec w} {a b : Bool} {j : ℕ}
    (hj : j < w) (h : feed poly c a >>> j = feed poly d b >>> j) :
    (c.getLsbD 0 ^^ a) = (d.getLsbD 0 ^^ b) ∧ c >>> (j + 1) = d >>> (j + 1) := by
  have htop : (c.getLsbD 0 ^^ a) = (d.getLsbD 0 ^^ b) := by
    have hbit := congrArg (fun x => x.getLsbD (w - 1 - j)) h
    rw [BitVec.getLsbD_ushiftRight, BitVec.getLsbD_ushiftRight, Nat.add_sub_cancel' (by omega),
      feed_top hpoly, feed_top hpoly] at hbit
    exact hbit
  refine ⟨htop, ?_⟩
  unfold feed at h
  rw [htop] at h
  rw [Nat.add_comm, BitVec.shiftRight_add, BitVec.shiftRight_add]
  split at h
  · rw [BitVec.ushiftRight_xor_distrib, BitVec.ushiftRight_xor_distrib] at h
    exact (BitVec.xor_left_inj _).mp h
  · exact h

lemma feed_injective (hpoly : poly.getLsbD (w - 1) = true) {c d : BitVec w} {b : Bool}
    (h : feed poly c b = feed poly d b) : c = d := by
  apply BitVec.eq_of_getLsbD_eq
  intro i hi
  obtain ⟨hlow, hhigh⟩ := feed_back (j := 0) hpoly (by omega)
    (congrArg (fun x : BitVec w => x >>> 0) h)
  cases i with
  | zero => exact Bool.xor_left_inj.mp hlow
  | succ i =>
    have hbit := congrArg (fun x => x.getLsbD i) hhigh
    rwa [BitVec.getLsbD_ushiftRight, BitVec.getLsbD_ushiftRight, Nat.zero_add, Nat.add_comm] at hbit

/-- The same bits keep two registers apart. -/
theorem feedAll_injective (hpoly : poly.getLsbD (w - 1) = true) {c d : BitVec w} {bits : List Bool}
    (h : feedAll poly c bits = feedAll poly d bits) : c = d := by
  induction bits generalizing c d with
  | nil => exact h
  | cons b bits ih => exact feed_injective hpoly (ih h)

/-- **Two words that are not longer than the register** leave it different. -/
theorem feedAll_word_injective (hpoly : poly.getLsbD (w - 1) = true) {c : BitVec w}
    {x y : List Bool} (hlen : x.length = y.length) (hw : x.length ≤ w)
    (h : feedAll poly c x = feedAll poly c y) : x = y := by
  -- Going back one bit, one more bit of the registers is out of sight.
  suffices hback : ∀ x y : List Bool, ∀ j, x.length = y.length → x.length + j ≤ w →
      feedAll poly c x >>> j = feedAll poly c y >>> j → x = y from
    hback x y 0 hlen hw (congrArg (fun x : BitVec w => x >>> 0) h)
  clear h hlen hw x y
  intro x
  induction x using List.reverseRecOn with
  | nil =>
    intro y j hlen _ _
    exact (List.length_eq_zero_iff.mp hlen.symm).symm
  | append_singleton x a ih =>
    intro y j hlen hw h
    rcases y.eq_nil_or_concat with rfl | ⟨y, b, rfl⟩
    · simp at hlen
    rw [List.concat_eq_append] at hlen h ⊢
    rw [List.length_append, List.length_append, List.length_singleton,
      List.length_singleton] at hlen
    rw [List.length_append, List.length_singleton] at hw
    rw [feedAll_append, feedAll_append] at h
    obtain ⟨hbit, hrest⟩ := feed_back hpoly (by omega) h
    obtain rfl := ih y (j + 1) (by omega) (by omega) hrest
    rw [Bool.xor_right_inj.mp hbit]

end

end DistDB.ShiftRegister
