import DistDB.Bytes
import DistDB.Checks

/-!
Readers of length-prefixed binary formats, and what it means for a reader to decode an
encoding: it succeeds on exactly the byte strings that start with an encoded value, and
gives that value and what follows it (`Decodes`).

A reader that needs more bytes than there are throws the one error of its format.
-/

namespace DistDB.Codec

open Bytes Checks

variable {ε α β : Type}

/-- A cursor over the bytes that are left. -/
abbrev Reader (ε α : Type) := StateT Bytes (Except ε) α

/-- The next `n` bytes. -/
def bytes (err : ε) (n : ℕ) : Reader ε Bytes := fun s =>
  if s.length < n then .error err else .ok (s.take n, s.drop n)

/-- A number of `w` bytes. -/
def num (err : ε) (w : ℕ) : Reader ε ℕ := do
  return val (← bytes err w)

/-- A string behind its length. -/
def str (err : ε) : Reader ε Bytes := do
  bytes err (← num err 4)

def many (r : Reader ε α) : ℕ → Reader ε (List α)
  | 0 => return []
  | n + 1 => do
    let a ← r
    let as ← many r n
    return a :: as

/-- A list behind its length. -/
def vec (err : ε) (r : Reader ε α) : Reader ε (List α) := do
  many r (← num err 4)

def encStr (s : Bytes) : Bytes := le 4 s.length ++ s

def encVec (enc : α → Bytes) (as : List α) : Bytes := le 4 as.length ++ as.flatMap enc

/-- `r` succeeds on exactly the strings that start with the encoding of some value that is
`ok`, and gives the value and the rest. -/
def Decodes (r : Reader ε α) (enc : α → Bytes) (ok : α → Prop) : Prop :=
  ∀ s a t, r s = .ok (a, t) ↔ s = enc a ++ t ∧ ok a

/-! ### Composition -/

variable {err : ε}

lemma bytes_eq_ok {n : ℕ} {s a t : Bytes} :
    bytes err n s = .ok (a, t) ↔ s = a ++ t ∧ a.length = n := by
  unfold bytes
  split
  case isTrue h =>
    refine ⟨fun h => (nomatch h), ?_⟩
    rintro ⟨rfl, hn⟩
    simp at h
    omega
  case isFalse h =>
    rw [Except.ok.injEq, Prod.mk.injEq]
    constructor
    · rintro ⟨rfl, rfl⟩
      exact ⟨(List.take_append_drop n s).symm, by simp; omega⟩
    · rintro ⟨rfl, rfl⟩
      exact ⟨List.take_left, List.drop_left⟩

lemma decodes_num (w : ℕ) : Decodes (num err w) (le w) (· < 256 ^ w) := by
  intro s k t
  unfold num
  rw [state_bind_eq_ok]
  constructor
  · rintro ⟨a, s', h, h'⟩
    obtain ⟨rfl, rfl⟩ := bytes_eq_ok.mp h
    obtain ⟨rfl, rfl⟩ := state_pure_eq_ok.mp h'
    exact ⟨by rw [le_val], val_lt a⟩
  · rintro ⟨rfl, hk⟩
    exact ⟨le w k, t, bytes_eq_ok.mpr ⟨rfl, length_le w k⟩,
      state_pure_eq_ok.mpr ⟨val_le_of_lt hk, rfl⟩⟩

lemma decodes_str : Decodes (str err) encStr (fun s => s.length < 2 ^ 32) := by
  intro s a t
  unfold str
  rw [state_bind_eq_ok]
  constructor
  · rintro ⟨n, s', h, h'⟩
    obtain ⟨rfl, hn⟩ := (decodes_num 4 _ _ _).mp h
    obtain ⟨rfl, rfl⟩ := bytes_eq_ok.mp h'
    exact ⟨by rw [encStr, List.append_assoc], hn⟩
  · rintro ⟨rfl, ha⟩
    exact ⟨a.length, a ++ t, (decodes_num 4 _ _ _).mpr
      ⟨by rw [encStr, List.append_assoc], ha⟩, bytes_eq_ok.mpr ⟨rfl, rfl⟩⟩

lemma decodes_many {r : Reader ε α} {enc : α → Bytes} {ok : α → Prop} (h : Decodes r enc ok)
    (n : ℕ) : Decodes (many r n) (List.flatMap enc)
    (fun as => as.length = n ∧ ∀ a ∈ as, ok a) := by
  induction n with
  | zero =>
    intro s as t
    rw [many, state_pure_eq_ok]
    constructor
    · rintro ⟨rfl, rfl⟩
      simp
    · rintro ⟨rfl, hn, -⟩
      obtain rfl := List.length_eq_zero_iff.mp hn
      simp
  | succ n ih =>
    intro s as t
    rw [many, state_bind_eq_ok]
    constructor
    · rintro ⟨a, s', ha, hrest⟩
      obtain ⟨as', s'', has, hpure⟩ := state_bind_eq_ok.mp hrest
      obtain ⟨rfl, hoka⟩ := (h _ _ _).mp ha
      obtain ⟨rfl, hlen, hok⟩ := (ih _ _ _).mp has
      obtain ⟨rfl, rfl⟩ := state_pure_eq_ok.mp hpure
      refine ⟨by simp, by simp [hlen], fun b hb => ?_⟩
      rcases List.mem_cons.mp hb with rfl | hb
      · exact hoka
      · exact hok b hb
    · rintro ⟨rfl, hlen, hok⟩
      cases as with
      | nil => simp at hlen
      | cons a as =>
        refine ⟨a, as.flatMap enc ++ t, (h _ _ _).mpr ⟨by simp, hok a (by simp)⟩, ?_⟩
        refine state_bind_eq_ok.mpr ⟨as, t, (ih _ _ _).mpr ⟨rfl, by simpa using hlen, ?_⟩,
          state_pure_eq_ok.mpr ⟨rfl, rfl⟩⟩
        exact fun b hb => hok b (by simp [hb])

lemma decodes_vec {r : Reader ε α} {enc : α → Bytes} {ok : α → Prop}
    (h : Decodes r enc ok) :
    Decodes (vec err r) (encVec enc) (fun as => as.length < 2 ^ 32 ∧ ∀ a ∈ as, ok a) := by
  intro s as t
  unfold vec
  rw [state_bind_eq_ok]
  constructor
  · rintro ⟨n, s', hn, hmany⟩
    obtain ⟨rfl, hlt⟩ := (decodes_num 4 _ _ _).mp hn
    obtain ⟨rfl, rfl, hok⟩ := (decodes_many h _ _ _ _).mp hmany
    exact ⟨by rw [encVec, List.append_assoc], hlt, hok⟩
  · rintro ⟨rfl, hlt, hok⟩
    exact ⟨as.length, as.flatMap enc ++ t,
      (decodes_num 4 _ _ _).mpr ⟨by rw [encVec, List.append_assoc], hlt⟩,
      (decodes_many h _ _ _ _).mpr ⟨rfl, rfl, hok⟩⟩

lemma many_append {r : Reader ε α} {enc : α → Bytes} {as bs : List α} {n : ℕ} {t u : Bytes}
    (h : ∀ a ∈ as, ∀ t, r (enc a ++ t) = .ok (a, t)) (hrest : many r n t = .ok (bs, u)) :
    many r (as.length + n) (as.flatMap enc ++ t) = .ok (as ++ bs, u) := by
  induction as with
  | nil => rwa [List.length_nil, Nat.zero_add, List.flatMap_nil]
  | cons a as ih =>
    obtain ⟨ha, has⟩ := List.forall_mem_cons.mp h
    have hflat : (a :: as).flatMap enc ++ t = enc a ++ (as.flatMap enc ++ t) := by
      rw [List.flatMap_cons, List.append_assoc]
    rw [List.length_cons, Nat.add_right_comm, hflat, many, state_bind_of_ok (ha _),
      state_bind_of_ok (ih has)]
    rfl

lemma vec_encVec (err : ε) {r : Reader ε α} {enc : α → Bytes} {as : List α}
    (h : ∀ a ∈ as, ∀ t, r (enc a ++ t) = .ok (a, t)) (hlen : as.length < 2 ^ 32) (t : Bytes) :
    vec err r (encVec enc as ++ t) = .ok (as, t) := by
  have hmany : many r (as.length + 0) (as.flatMap enc ++ t) = .ok (as ++ [], t) :=
    many_append h rfl
  rw [Nat.add_zero, List.append_nil] at hmany
  rw [vec, encVec, List.append_assoc, state_bind_of_ok ((decodes_num 4 _ _ _).mpr ⟨rfl, hlen⟩)]
  exact hmany

/-- As many values are read as are asked for, and what every value read satisfies they satisfy. -/
lemma many_forall {r : Reader ε α} {P : α → Prop} (h : ∀ s a t, r s = .ok (a, t) → P a)
    {n : ℕ} {s t : Bytes} {as : List α} (hmany : many r n s = .ok (as, t)) :
    as.length = n ∧ ∀ a ∈ as, P a := by
  induction n generalizing s t as with
  | zero =>
    obtain ⟨rfl, -⟩ := state_pure_eq_ok.mp hmany
    simp
  | succ n ih =>
    obtain ⟨a, _, ha, hmany⟩ := state_bind_eq_ok.mp hmany
    obtain ⟨as', _, has, hmany⟩ := state_bind_eq_ok.mp hmany
    obtain ⟨rfl, -⟩ := state_pure_eq_ok.mp hmany
    obtain ⟨hlen, hall⟩ := ih has
    exact ⟨by simp [hlen], List.forall_mem_cons.mpr ⟨h _ _ _ ha, hall⟩⟩

lemma vec_forall {r : Reader ε α} {P : α → Prop} (h : ∀ s a t, r s = .ok (a, t) → P a)
    {s t : Bytes} {as : List α} (hvec : vec err r s = .ok (as, t)) :
    as.length < 2 ^ 32 ∧ ∀ a ∈ as, P a := by
  obtain ⟨n, _, hn, hrest⟩ := state_bind_eq_ok.mp hvec
  obtain ⟨-, hlt⟩ := (decodes_num 4 _ _ _).mp hn
  obtain ⟨rfl, hall⟩ := many_forall h hrest
  exact ⟨hlt, hall⟩

lemma vec_length {r : Reader ε α} {s t : Bytes} {as : List α} (h : vec err r s = .ok (as, t)) :
    ∃ rest, s = le 4 as.length ++ rest := by
  obtain ⟨n, rest, hn, hrest⟩ := state_bind_eq_ok.mp h
  obtain ⟨rfl, -⟩ := (decodes_num 4 _ _ _).mp hn
  obtain ⟨rfl, -⟩ := many_forall (fun _ _ _ _ => trivial) hrest
  exact ⟨rest, rfl⟩

/-- What the reader gives on a whole string, whatever it leaves unread. -/
def run (r : Reader ε α) (s : Bytes) : Except ε α := (r s).map Prod.fst

lemma run_eq_ok {r : Reader ε α} {s : Bytes} {a : α} :
    run r s = .ok a ↔ ∃ t, r s = .ok (a, t) := by
  unfold run
  rcases r s with e | ⟨b, t⟩
  · simp [Except.map]
  · simp [Except.map]

end DistDB.Codec
