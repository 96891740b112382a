import DistDB.Replicas

/-!
Which damaged snapshots are taken for whole ones.

`DecodeSnapshot` checks that there is room for each length, and takes the bytes that a length
announces with `substr`, which takes what there is. A key that is cut short is noticed, since its
value's length is missing behind it; a value is not, if it is the last one. What is left behind the
last value is not looked at (`exact_iff`).
-/

namespace DistDB.SnapshotDamage

open Replicas Codec Bytes Checks

/-- Pairs whose lengths fit their fields of 32 bits. -/
structure SmallPairs (kvs : List (Bytes × Bytes)) : Prop where
  count : kvs.length < 2 ^ 32
  key : ∀ kv ∈ kvs, kv.1.length < 2 ^ 32
  value : ∀ kv ∈ kvs, kv.2.length < 2 ^ 32

/-- A snapshot with more bytes behind it. -/
def Trailed (blob : Bytes) : Prop :=
  ∃ kvs extra, SmallPairs kvs ∧ extra ≠ [] ∧ blob = encodeSnapshot kvs ++ extra

/-- A snapshot that is cut inside its last value. -/
def Shortened (blob : Bytes) : Prop :=
  ∃ kvs k v lost, SmallPairs (kvs ++ [(k, v ++ lost)]) ∧ lost ≠ [] ∧
    blob ++ lost = encodeSnapshot (kvs ++ [(k, v ++ lost)])

/-- The blob is rejected, or it is the snapshot of what it is read as. -/
def Exact (blob : Bytes) : Prop :=
  (∃ e, decodeSnapshot blob = .error e) ∨
    ∃ kvs, decodeSnapshot blob = .ok kvs ∧ encodeSnapshot kvs = blob

lemma substr_eq_ok {n : ℕ} {s a t : Bytes} : substr n s = .ok (a, t) ↔
    s = a ++ t ∧ (a.length = n ∨ a.length < n ∧ t = []) := by
  rw [substr, Except.ok.injEq, Prod.mk.injEq]
  constructor
  · rintro ⟨rfl, rfl⟩
    refine ⟨(List.take_append_drop n s).symm, ?_⟩
    rw [List.length_take, List.drop_eq_nil_iff]
    omega
  · rintro ⟨rfl, rfl | ⟨hlt, rfl⟩⟩
    · exact ⟨List.take_left, List.drop_left⟩
    · rw [List.append_nil]
      exact ⟨List.take_of_length_le hlt.le, List.drop_of_length_le hlt.le⟩

lemma readPair_eq_ok {s t k v : Bytes} : readPair s = .ok ((k, v), t) ↔
    ∃ n < 2 ^ 32, k.length < 2 ^ 32 ∧ s = encStr k ++ le 4 n ++ v ++ t ∧
      (v.length = n ∨ v.length < n ∧ t = []) := by
  unfold readPair
  simp only [state_bind_eq_ok, state_pure_eq_ok, decodes_num 4 _ _ _, substr_eq_ok]
  constructor
  · rintro ⟨m, _, ⟨rfl, hm⟩, _, _, ⟨rfl, hkey⟩, n, _, ⟨rfl, hn⟩, _, _,
      ⟨rfl, hvalue⟩, heq, rfl⟩
    cases heq
    rcases hkey with rfl | ⟨-, hnil⟩
    · exact ⟨n, hn, hm, by simp [encStr], hvalue⟩
    · have hlen := congrArg List.length hnil
      simp at hlen
  · rintro ⟨n, hn, hk, rfl, hvalue⟩
    exact ⟨k.length, k ++ (le 4 n ++ v ++ t), ⟨by simp [encStr], hk⟩, k, le 4 n ++ v ++ t,
      ⟨rfl, .inl rfl⟩, n, v ++ t, ⟨by simp, hn⟩, v, t, ⟨rfl, hvalue⟩, rfl, rfl⟩

lemma readPairs {m : ℕ} {s t : Bytes} {kvs : List (Bytes × Bytes)}
    (h : many readPair m s = .ok (kvs, t)) : kvs.length = m ∧
      (∀ kv ∈ kvs, kv.1.length < 2 ^ 32) ∧
      ((s = kvs.flatMap encPair ++ t ∧ ∀ kv ∈ kvs, kv.2.length < 2 ^ 32) ∨
        ∃ kvs' k v lost, kvs = kvs' ++ [(k, v)] ∧ lost ≠ [] ∧
          s ++ lost = (kvs' ++ [(k, v ++ lost)]).flatMap encPair ∧
          (∀ kv ∈ kvs', kv.2.length < 2 ^ 32) ∧ (v ++ lost).length < 2 ^ 32) := by
  induction m generalizing s kvs with
  | zero =>
    obtain ⟨rfl, rfl⟩ := state_pure_eq_ok.mp h
    exact ⟨rfl, by simp, .inl ⟨rfl, by simp⟩⟩
  | succ m ih =>
    obtain ⟨⟨k, v⟩, s', hpair, h⟩ := state_bind_eq_ok.mp h
    obtain ⟨rest, t', hrest, h⟩ := state_bind_eq_ok.mp h
    obtain ⟨rfl, rfl⟩ := state_pure_eq_ok.mp h
    obtain ⟨n, hn, hk, rfl, hvalue⟩ := readPair_eq_ok.mp hpair
    obtain ⟨hlen, hkeys, hall⟩ := ih hrest
    refine ⟨by simp [hlen], List.forall_mem_cons.mpr ⟨hk, hkeys⟩, ?_⟩
    rcases hvalue with rfl | ⟨hlt, rfl⟩
    · rcases hall with ⟨rfl, hvalues⟩ | ⟨kvs', k', v', lost, rfl, hlost, heq, hvalues, hv'⟩
      · exact .inl ⟨by simp [encPair, encStr], List.forall_mem_cons.mpr ⟨hn, hvalues⟩⟩
      · refine .inr ⟨(k, v) :: kvs', k', v', lost, rfl, hlost, ?_,
          List.forall_mem_cons.mpr ⟨hn, hvalues⟩, hv'⟩
        rw [List.append_assoc, heq]
        simp [encPair, encStr]
    · -- no other pair is read behind a value that is cut
      obtain rfl : m = 0 := by
        cases m with
        | zero => rfl
        | succ m => cases hrest
      obtain rfl : rest = [] := List.length_eq_zero_iff.mp hlen
      have hfull : (v ++ List.replicate (n - v.length) 0).length = n := by
        simp
        omega
      refine .inr ⟨[], k, v, List.replicate (n - v.length) 0, rfl, ?_,
        ?_, by simp, by rwa [hfull]⟩
      · rw [Ne, List.replicate_eq_nil_iff]
        omega
      · simp only [List.nil_append, List.flatMap_cons, List.flatMap_nil, encPair, encStr, hfull,
          List.append_nil, List.append_assoc]

/-! ### Snapshots -/

section

variable {kvs : List (Bytes × Bytes)} {k v lost extra : Bytes}

lemma SmallPairs.readBack (h : SmallPairs kvs) :
    ∀ kv ∈ kvs, ∀ t, readPair (encPair kv ++ t) = .ok (kv, t) :=
  fun kv hkv t => readPair_encPair (h.key kv hkv) (h.value kv hkv) t

lemma decode_trailed (h : SmallPairs kvs) (extra : Bytes) :
    decodeSnapshot (encodeSnapshot kvs ++ extra) = .ok kvs :=
  run_eq_ok.mpr ⟨extra, vec_encVec corruptSnapshot h.readBack h.count extra⟩

lemma decode_shortened {blob : Bytes} (h : SmallPairs (kvs ++ [(k, v ++ lost)]))
    (hlost : lost ≠ []) (hblob : blob ++ lost = encodeSnapshot (kvs ++ [(k, v ++ lost)])) :
    decodeSnapshot blob = .ok (kvs ++ [(k, v)]) := by
  have hsplit : blob = le 4 (kvs.length + 1) ++
      (kvs.flatMap encPair ++ (encStr k ++ le 4 (v ++ lost).length ++ v)) := by
    refine List.append_cancel_right (hblob.trans ?_)
    simp [encodeSnapshot, encVec, encPair, encStr]
  have hlen : kvs.length + 1 < 2 ^ 32 := by simpa using h.count
  have hpair : readPair (encStr k ++ le 4 (v ++ lost).length ++ v) = .ok ((k, v), []) := by
    refine readPair_eq_ok.mpr
      ⟨_, h.value (k, v ++ lost) (by simp), h.key (k, v ++ lost) (by simp),
        (List.append_nil _).symm, .inr ⟨?_, rfl⟩⟩
    rw [List.length_append, Nat.lt_add_right_iff_pos]
    exact List.length_pos_iff.mpr hlost
  have hread : many readPair (kvs.length + 1)
      (kvs.flatMap encPair ++ (encStr k ++ le 4 (v ++ lost).length ++ v)) =
        .ok (kvs ++ [(k, v)], []) := by
    refine many_append (fun kv hkv t => h.readBack kv (by simp [hkv]) t) ?_
    rw [many, state_bind_of_ok hpair]
    rfl
  refine run_eq_ok.mpr ⟨[], ?_⟩
  rw [hsplit, vec, state_bind_of_ok ((decodes_num 4 _ _ _).mpr ⟨rfl, hlen⟩)]
  exact hread

lemma encode_shortened {blob : Bytes} (h : SmallPairs (kvs ++ [(k, v ++ lost)]))
    (hlost : lost ≠ []) (hblob : blob ++ lost = encodeSnapshot (kvs ++ [(k, v ++ lost)])) :
    encodeSnapshot (kvs ++ [(k, v)]) ≠ blob := by
  intro heq
  have hfields : le 4 v.length = le 4 (v ++ lost).length := by
    rw [← heq] at hblob
    simpa [encodeSnapshot, encVec, encPair, encStr] using hblob
  have hwhole : (v ++ lost).length < 2 ^ 32 := h.value (k, v ++ lost) (by simp)
  have hlen : v.length < 2 ^ 32 := by
    rw [List.length_append] at hwhole
    omega
  have hvals := congrArg val hfields
  rw [val_le_of_lt hlen, val_le_of_lt hwhole, List.length_append, Nat.left_eq_add] at hvals
  exact hlost (List.length_eq_zero_iff.mp hvals)

lemma decode_cases {blob : Bytes} (h : decodeSnapshot blob = .ok kvs) :
    encodeSnapshot kvs = blob ∨ Trailed blob ∨ Shortened blob := by
  obtain ⟨t, hvec⟩ := run_eq_ok.mp h
  obtain ⟨n, s, hn, hmany⟩ := state_bind_eq_ok.mp hvec
  obtain ⟨rfl, hlt⟩ := (decodes_num 4 _ _ _).mp hn
  obtain ⟨rfl, hkeys,
      ⟨rfl, hvalues⟩ | ⟨kvs', k, v, lost, rfl, hlost, heq, hvalues, hv⟩⟩ :=
    readPairs hmany
  · rw [← List.append_assoc]
    by_cases ht : t = []
    · exact .inl (by rw [ht, List.append_nil]; rfl)
    · exact .inr (.inl ⟨kvs, t, ⟨hlt, hkeys, hvalues⟩, ht, rfl⟩)
  · refine .inr (.inr ⟨kvs', k, v, lost,
      ⟨by simpa using hlt, fun kv hkv => ?_, fun kv hkv => ?_⟩, hlost, ?_⟩)
    · rcases List.mem_append.mp hkv with hkv | hkv
      · exact hkeys kv (by simp [hkv])
      · rw [List.mem_singleton.mp hkv]
        exact hkeys (k, v) (by simp)
    · rcases List.mem_append.mp hkv with hkv | hkv
      · exact hvalues kv hkv
      · rw [List.mem_singleton.mp hkv]
        exact hv
    · rw [List.append_assoc, heq, encodeSnapshot, encVec]
      simp

end

/-- **Which damage is noticed**: a byte string is rejected, or is the snapshot of what it is read
as, unless it is a snapshot with more bytes behind it or one that is cut inside its last value. -/
theorem exact_iff (blob : Bytes) : Exact blob ↔ ¬ Trailed blob ∧ ¬ Shortened blob := by
  constructor
  · intro h
    constructor
    · rintro ⟨kvs, extra, hsmall, hextra, rfl⟩
      rcases h with ⟨e, he⟩ | ⟨kvs', hkvs', heq⟩
      · rw [decode_trailed hsmall] at he
        cases he
      · rw [decode_trailed hsmall] at hkvs'
        cases hkvs'
        exact hextra (List.append_right_eq_self.mp heq.symm)
    · rintro ⟨kvs, k, v, lost, hsmall, hlost, hblob⟩
      rcases h with ⟨e, he⟩ | ⟨kvs', hkvs', heq⟩
      · rw [decode_shortened hsmall hlost hblob] at he
        cases he
      · rw [decode_shortened hsmall hlost hblob] at hkvs'
        cases hkvs'
        exact encode_shortened hsmall hlost hblob heq
  · rintro ⟨htrailed, hshortened⟩
    rcases hdecode : decodeSnapshot blob with e | kvs
    · exact .inl ⟨e, hdecode⟩
    · rcases decode_cases hdecode with heq | hbad | hbad
      · exact .inr ⟨kvs, hdecode, heq⟩
      · exact absurd hbad htrailed
      · exact absurd hbad hshortened

/-- **A dump without its last byte is restored**, with a value that is shorter by one. -/
theorem cut_value_accepted : ¬ ∀ blob, Exact blob := by
  intro h
  have hread : decodeSnapshot (encodeSnapshot [([107], [1, 2])]).dropLast = .ok [([107], [1])] := by
    decide +kernel
  rcases h (encodeSnapshot [([107], [1, 2])]).dropLast with ⟨e, he⟩ | ⟨kvs, hkvs, heq⟩
  · rw [hread] at he
    cases he
  · rw [hread] at hkvs
    cases hkvs
    revert heq
    decide

end DistDB.SnapshotDamage
