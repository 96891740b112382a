import DistDB.Codec

/-!
Readers that read no further than the value they return (`Streams`): more bytes behind it
change nothing. Such a reader, if it reads an encoding back (`ReadsBack`), fails on every
proper prefix of the encoding, wherever the cut falls (`Streams.truncated`).
-/

namespace DistDB.Codec

open Bytes Checks

variable {ε α β : Type} {err : ε}

/-- `r` reads no further than what it returns, and fails with `err` only. -/
structure Streams (err : ε) (r : Reader ε α) : Prop where
  more : ∀ {s a t}, r s = .ok (a, t) → ∀ u, r (s ++ u) = .ok (a, t ++ u)
  fails : ∀ {s e}, r s = .error e → e = err

/-- `r` reads `a` off its encoding and leaves what follows. -/
def ReadsBack (r : Reader ε α) (enc : Bytes) (a : α) : Prop := ∀ t, r (enc ++ t) = .ok (a, t)

/-- **A reader fails on every proper prefix** of an encoding that it reads back. -/
theorem Streams.truncated {r : Reader ε α} {enc p : Bytes} {a : α} (hr : Streams err r)
    (h : ReadsBack r enc a) (hp : p <+: enc) (hne : p ≠ enc) : r p = .error err := by
  obtain ⟨q, rfl⟩ := hp
  rcases hread : r p with e | ⟨b, t⟩
  · rw [hr.fails hread]
  · have hmore := hr.more hread q
    have hwhole := h []
    rw [List.append_nil, hmore, Except.ok.injEq, Prod.mk.injEq] at hwhole
    have hq : q = [] := (List.append_eq_nil_iff.mp hwhole.2).2
    exact absurd (by rw [hq, List.append_nil]) hne

lemma streams_pure (a : α) : Streams err (pure a : Reader ε α) where
  more h u := by
    obtain ⟨rfl, rfl⟩ := state_pure_eq_ok.mp h
    rfl
  fails h := nomatch h

lemma Streams.bind {r : Reader ε α} {f : α → Reader ε β} (hr : Streams err r)
    (hf : ∀ a, Streams err (f a)) : Streams err (r >>= f) where
  more h u := by
    obtain ⟨a, s', hfirst, hrest⟩ := state_bind_eq_ok.mp h
    rw [state_bind_of_ok (hr.more hfirst u), (hf a).more hrest u]
  fails {s e} h := by
    rcases hread : r s with e' | ⟨a, s'⟩
    · have he : (r >>= f) s = .error e' := by
        show (r s >>= fun p => f p.1 p.2) = _
        rw [hread]
        rfl
      rw [he, Except.error.injEq] at h
      rw [← h, hr.fails hread]
    · rw [state_bind_of_ok hread] at h
      exact (hf a).fails h

lemma streams_bytes (n : ℕ) : Streams err (bytes err n) where
  more {s a t} h u := by
    obtain ⟨rfl, hn⟩ := bytes_eq_ok.mp h
    exact bytes_eq_ok.mpr ⟨List.append_assoc .., hn⟩
  fails {s e} h := by
    unfold bytes at h
    split at h
    · exact (Except.error.inj h).symm
    · exact nomatch h

lemma streams_num (w : ℕ) : Streams err (num err w) :=
  (streams_bytes w).bind fun _ => streams_pure _

lemma streams_str : Streams err (str err) :=
  (streams_num 4).bind fun n => streams_bytes n

lemma streams_many {r : Reader ε α} (hr : Streams err r) (n : ℕ) : Streams err (many r n) := by
  induction n with
  | zero => exact streams_pure []
  | succ n ih => exact hr.bind fun a => ih.bind fun as => streams_pure (a :: as)

lemma streams_vec {r : Reader ε α} (hr : Streams err r) : Streams err (vec err r) :=
  (streams_num 4).bind fun n => streams_many hr n

lemma ReadsBack.step {r : Reader ε α} {enc : Bytes} {a : α} (h : ReadsBack r enc a)
    (f : α → Reader ε β) (t : Bytes) : (r >>= f) (enc ++ t) = f a t :=
  state_bind_of_ok (h t)

lemma readsBack_num {w k : ℕ} (hk : k < 256 ^ w) : ReadsBack (num err w) (le w k) k :=
  fun _ => (decodes_num w _ _ _).mpr ⟨rfl, hk⟩

lemma readsBack_str {s : Bytes} (hs : s.length < 2 ^ 32) : ReadsBack (str err) (encStr s) s :=
  fun _ => (decodes_str _ _ _).mpr ⟨rfl, hs⟩

lemma readsBack_vec {r : Reader ε α} {enc : α → Bytes} {as : List α}
    (h : ∀ a ∈ as, ReadsBack r (enc a) a) (hlen : as.length < 2 ^ 32) :
    ReadsBack (vec err r) (encVec enc as) as :=
  vec_encVec err h hlen

/-- A flag in a byte of its own: everything but zero is true. -/
def flag (err : ε) : Reader ε Bool := do
  return decide ((← num err 1) ≠ 0)

def encFlag (b : Bool) : Bytes := le 1 (if b then 1 else 0)

lemma streams_flag : Streams err (flag err) :=
  (streams_num 1).bind fun _ => streams_pure _

lemma readsBack_flag (b : Bool) : ReadsBack (flag err) (encFlag b) b := by
  intro t
  rw [flag, encFlag, (readsBack_num (by split <;> omega)).step]
  cases b <;> rfl

end DistDB.Codec
