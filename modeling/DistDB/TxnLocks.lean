import DistDB.TxnModel

/-!
The locks of a participant: what each control command does to what is pending, and that the
locked keys are always those of the pending transactions, each of one of them only.
-/

namespace DistDB.TxnModel

open Codec Bytes Checks

/-- The locked keys are those of the pending transactions, and no key is locked by two of
them. -/
structure TxnParticipant.WellLocked (p : TxnParticipant) : Prop where
  locked : ∀ k, k ∈ p.lockedKeys ↔ ∃ t q, p.pending.find t = some q ∧ k ∈ q.keys
  apart : ∀ {t t' q q' k}, p.pending.find t = some q → p.pending.find t' = some q' →
    k ∈ q.keys → k ∈ q'.keys → t = t'

/-- The transaction holds nothing: it is not pending, and every locked key is one of another
transaction. -/
def TxnParticipant.Free (p : TxnParticipant) (txnId : ℕ) : Prop :=
  p.pending.find txnId = none ∧
    ∀ k ∈ p.lockedKeys, ∃ t q, t ≠ txnId ∧ p.pending.find t = some q ∧ k ∈ q.keys

lemma mem_foldl_insert {k : Bytes} {keys : List Bytes} {l : Finset Bytes} :
    k ∈ keys.foldl (fun l k => insert k l) l ↔ k ∈ keys ∨ k ∈ l := by
  induction keys generalizing l with
  | nil => simp
  | cons a keys ih =>
    rw [List.foldl_cons, ih, Finset.mem_insert, List.mem_cons]
    tauto

lemma mem_foldl_erase {k : Bytes} {keys : List Bytes} {l : Finset Bytes} :
    k ∈ keys.foldl Finset.erase l ↔ k ∉ keys ∧ k ∈ l := by
  induction keys generalizing l with
  | nil => simp
  | cons a keys ih =>
    rw [List.foldl_cons, ih, Finset.mem_erase, List.mem_cons]
    tauto

namespace TxnParticipant

variable {p : TxnParticipant} {txnId : ℕ}

lemma wellLocked_empty : empty.WellLocked where
  locked := fun k => by simp [empty]
  apart := fun h => by simp [empty] at h

lemma WellLocked.free (h : p.WellLocked) (hnone : p.pending.find txnId = none) : p.Free txnId := by
  refine ⟨hnone, fun k hk => ?_⟩
  obtain ⟨t, q, hq, hkq⟩ := (h.locked k).mp hk
  refine ⟨t, q, ?_, hq, hkq⟩
  rintro rfl
  rw [hnone] at hq
  cases hq

/-- What a vote leaves: nothing new, unless the transaction is new and its keys are free. -/
lemma prepare_cases (p : TxnParticipant) (txnId : ℕ) (keys commands : List Bytes) :
    (p.prepare txnId keys commands).1 = p ∨
    (p.pending.find txnId = none ∧ (∀ k ∈ keys, k ∉ p.lockedKeys) ∧
      p.prepare txnId keys commands = (⟨p.pending.insert txnId ⟨keys, commands⟩,
        keys.foldl (fun l k => insert k l) p.lockedKeys⟩, [])) := by
  unfold prepare
  split
  case isTrue => exact .inl rfl
  case isFalse hnone =>
    split
    case h_1 => exact .inl rfl
    case h_2 hfree =>
      refine .inr ⟨Option.not_isSome_iff_eq_none.mp hnone, fun k hk hlocked => ?_, rfl⟩
      exact absurd (List.find?_eq_none.mp hfree k hk) (by simpa using hlocked)

lemma prepare_pending {keys commands : List Bytes}
    (hvote : (p.prepare txnId keys commands).2 = []) :
    ((p.prepare txnId keys commands).1.pending.find txnId).isSome := by
  unfold prepare at hvote ⊢
  split
  case isTrue h => exact h
  case isFalse hnone =>
    rw [if_neg hnone] at hvote
    split at hvote
    · simp [text] at hvote
    · simp

lemma find_prepare {keys commands : List Bytes} {t : ℕ} (ht : t ≠ txnId) :
    (p.prepare txnId keys commands).1.pending.find t = p.pending.find t := by
  rcases prepare_cases p txnId keys commands with h | ⟨-, -, h⟩
  · rw [h]
  · rw [h, OrdMap.find_insert, if_neg ht]

lemma WellLocked.prepare (h : p.WellLocked) (keys commands : List Bytes) :
    (p.prepare txnId keys commands).1.WellLocked := by
  rcases prepare_cases p txnId keys commands with heq | ⟨hnone, hfree, heq⟩
  · rwa [heq]
  · have hother : ∀ {t q k}, p.pending.find t = some q → k ∈ q.keys →
      k ∈ keys → False :=
      fun hq hk hmem => hfree _ hmem ((h.locked _).mpr ⟨_, _, hq, hk⟩)
    rw [heq]
    constructor
    case locked =>
      intro k
      rw [mem_foldl_insert, h.locked]
      constructor
      · rintro (hk | ⟨t, q, hq, hk⟩)
        · exact ⟨txnId, ⟨keys, commands⟩, OrdMap.find_insert_self .., hk⟩
        · refine ⟨t, q, ?_, hk⟩
          rw [OrdMap.find_insert, if_neg, hq]
          rintro rfl
          rw [hnone] at hq
          cases hq
      · rintro ⟨t, q, hq, hk⟩
        rw [OrdMap.find_insert] at hq
        split_ifs at hq with ht
        · cases hq
          exact .inl hk
        · exact .inr ⟨t, q, hq, hk⟩
    case apart =>
      intro t t' q q' k hq hq' hk hk'
      rw [OrdMap.find_insert] at hq hq'
      split_ifs at hq hq' with ht ht'
      · rw [ht, ht']
      · cases hq
        exact (hother hq' hk' hk).elim
      · cases hq'
        exact (hother hq hk hk').elim
      · exact h.apart hq hq' hk hk'

lemma find_resolve (q : Pending) (t : ℕ) :
    (p.resolve txnId q).pending.find t = if t = txnId then none else p.pending.find t :=
  OrdMap.find_erase ..

lemma WellLocked.resolve (h : p.WellLocked) {q : Pending} (hq : p.pending.find txnId = some q) :
    (p.resolve txnId q).WellLocked where
  locked := fun k => by
    show k ∈ q.keys.foldl Finset.erase p.lockedKeys ↔ _
    rw [mem_foldl_erase, h.locked]
    simp only [find_resolve]
    constructor
    · rintro ⟨hnot, t, q', hq', hk⟩
      refine ⟨t, q', ?_, hk⟩
      rw [if_neg, hq']
      rintro rfl
      rw [hq, Option.some.injEq] at hq'
      exact hnot (hq' ▸ hk)
    · rintro ⟨t, q', hq', hk⟩
      split_ifs at hq' with ht
      exact ⟨fun hk' => ht (h.apart hq' hq hk hk'), t, q', hq', hk⟩
  apart := fun {t t' q' q'' k} hq' hq'' hk hk' => by
    simp only [find_resolve] at hq' hq''
    split_ifs at hq' hq''
    exact h.apart hq' hq'' hk hk'

lemma find_abort (t : ℕ) :
    (p.abort txnId).1.pending.find t = if t = txnId then none else p.pending.find t := by
  unfold abort
  cases hq : p.pending.find txnId with
  | none =>
    split_ifs with ht
    · rw [ht]; exact hq
    · rfl
  | some q => exact find_resolve q t

lemma WellLocked.abort (h : p.WellLocked) : (p.abort txnId).1.WellLocked := by
  unfold TxnParticipant.abort
  cases hq : p.pending.find txnId with
  | none => exact h
  | some q => exact h.resolve hq

end TxnParticipant

lemma find_commit (s : Shard) (txnId t : ℕ) :
    (commit s txnId).1.participant.pending.find t =
      if t = txnId then none else s.participant.pending.find t := by
  unfold commit
  cases hq : s.participant.pending.find txnId with
  | none =>
    split_ifs with ht
    · rw [ht]; exact hq
    · rfl
  | some q => exact TxnParticipant.find_resolve q t

lemma wellLocked_commit {s : Shard} (h : s.participant.WellLocked) (txnId : ℕ) :
    (commit s txnId).1.participant.WellLocked := by
  unfold commit
  cases hq : s.participant.pending.find txnId with
  | none => exact h
  | some q => exact h.resolve hq

lemma tryDecode_control {type txnId : ℕ} (htype : type < 256) (htxn : txnId < 2 ^ 64)
    (body : Bytes) :
    tryDecodeTxnControl (encodeControl type txnId ++ body) =
      some <$> Codec.run (readTxnBody type txnId) body := by
  have hread : ∀ s, readTxnControl
      (encodeControl type txnId ++ s) = readTxnBody type txnId s := by
    intro s
    have htag : num corruptTxn 1 (encodeControl type txnId ++ s) =
        .ok (0, le 1 type ++ (le 8 txnId ++ s)) :=
      (decodes_num 1 _ _ _).mpr ⟨by simp [encodeControl], by norm_num⟩
    have hty : num corruptTxn 1 (le 1 type ++ (le 8 txnId ++ s)) = .ok (type, le 8 txnId ++ s) :=
      (decodes_num 1 _ _ _).mpr ⟨rfl, by simpa using htype⟩
    have hid : num corruptTxn 8 (le 8 txnId ++ s) = .ok (txnId, s) :=
      (decodes_num 8 _ _ _).mpr ⟨rfl, by norm_num; exact htxn⟩
    unfold readTxnControl
    rw [state_bind_of_ok htag, state_bind_of_ok hty, state_bind_of_ok hid]
  have htag : (encodeControl type txnId ++ body).head? = some 0 := by
    unfold encodeControl
    rw [List.append_assoc, List.append_assoc]
    rfl
  unfold tryDecodeTxnControl Codec.run
  rw [if_pos htag, hread]

/-- The strings and lists are short enough for their length fields. -/
def TxnPrepare.Fits (p : TxnPrepare) : Prop :=
  (p.keys.length < 2 ^ 32 ∧ ∀ k ∈ p.keys, k.length < 2 ^ 32) ∧
    (p.commands.length < 2 ^ 32 ∧ ∀ c ∈ p.commands, c.length < 2 ^ 32)

lemma tryDecode_prepare {p : TxnPrepare} (htxn : p.txnId < 2 ^ 64) (h : p.Fits) :
    tryDecodeTxnControl (encodeTxnPrepare p) =
      .ok (some ⟨kPrepare, p.txnId, p.keys, p.commands⟩) := by
  unfold encodeTxnPrepare
  rw [List.append_assoc, tryDecode_control (by decide) htxn]
  have hkeys : vec corruptTxn (str corruptTxn) (encVec encStr p.keys ++ encVec encStr p.commands) =
      .ok (p.keys, encVec encStr p.commands) :=
    (decodes_vec decodes_str _ _ _).mpr ⟨rfl, h.1⟩
  have hcommands : vec corruptTxn (str corruptTxn) (encVec encStr p.commands) =
      .ok (p.commands, []) :=
    (decodes_vec decodes_str _ _ _).mpr ⟨by simp, h.2⟩
  have hbody : readTxnBody kPrepare p.txnId (encVec encStr p.keys ++ encVec encStr p.commands) =
      .ok (⟨kPrepare, p.txnId, p.keys, p.commands⟩, []) := by
    unfold readTxnBody
    rw [if_pos rfl]
    exact state_bind_eq_ok.mpr ⟨_, _, hkeys, state_bind_eq_ok.mpr ⟨_, _, hcommands,
      state_pure_eq_ok.mpr ⟨rfl, rfl⟩⟩⟩
  rw [run_eq_ok.mpr ⟨_, hbody⟩]
  rfl

lemma tryDecode_prepare_txnId {p : TxnPrepare} (htxn : p.txnId < 2 ^ 64)
    {c : TxnControlCommand} (h : tryDecodeTxnControl (encodeTxnPrepare p) = .ok (some c)) :
    c.type = kPrepare ∧ c.txnId = p.txnId := by
  unfold encodeTxnPrepare at h
  rw [List.append_assoc, tryDecode_control (by decide) htxn] at h
  obtain ⟨c', hc', heq⟩ : ∃ c', Codec.run (readTxnBody kPrepare p.txnId)
      (encVec encStr p.keys ++ encVec encStr p.commands) = .ok c' ∧ c' = c := by
    cases hrun : Codec.run (readTxnBody kPrepare p.txnId)
        (encVec encStr p.keys ++ encVec encStr p.commands) with
    | error e => rw [hrun] at h; cases h
    | ok c' => rw [hrun] at h; cases h; exact ⟨c, rfl, rfl⟩
  subst heq
  obtain ⟨t, ht⟩ := run_eq_ok.mp hc'
  unfold readTxnBody at ht
  rw [if_pos rfl] at ht
  obtain ⟨keys, s, -, ht⟩ := state_bind_eq_ok.mp ht
  obtain ⟨commands, s', -, ht⟩ := state_bind_eq_ok.mp ht
  obtain ⟨rfl, -⟩ := state_pure_eq_ok.mp ht
  exact ⟨rfl, rfl⟩

lemma tryDecode_resolution {type txnId : ℕ} (htype : type = kCommit ∨ type = kAbort)
    (htxn : txnId < 2 ^ 64) :
    tryDecodeTxnControl (encodeControl type txnId) = .ok (some ⟨type, txnId, [], []⟩) := by
  have hlt : type < 256 := by rcases htype with rfl | rfl <;> decide
  have hne : type ≠ kPrepare := by rcases htype with rfl | rfl <;> decide
  rw [← List.append_nil (encodeControl type txnId), tryDecode_control hlt htxn]
  unfold readTxnBody
  rw [if_neg hne]
  rfl

/-! ### Applying -/

lemma applyCallback_cases {s s' : Shard} {command error : Bytes}
    (h : applyCallback s command = .ok (s', error)) :
    (tryDecodeTxnControl command = .ok none ∧ s'.participant = s.participant) ∨
    ∃ c, tryDecodeTxnControl command = .ok (some c) ∧
      ((c.type = kPrepare ∧ ((s' = s ∧ error ≠ []) ∨ (s'.participant, error) =
          s.participant.prepare c.txnId c.keys c.commands ∧ s'.store = s.store)) ∨
        (c.type = kCommit ∧ (s', error) = commit s c.txnId) ∨
        (c.type = kAbort ∧ (s'.participant, error) = s.participant.abort c.txnId ∧
          s'.store = s.store) ∨
        (c.type ≠ kPrepare ∧ c.type ≠ kCommit ∧ c.type ≠ kAbort ∧
          s'.participant = s.participant)) := by
  unfold applyCallback at h
  obtain ⟨control, hcontrol, h⟩ := bind_eq_ok.mp h
  cases control with
  | none =>
    cases h
    exact .inl ⟨hcontrol, rfl⟩
  | some c =>
    refine .inr ⟨c, hcontrol, ?_⟩
    dsimp only at h
    split_ifs at h with hprep hdup hcommit habort
    · cases h
      exact .inl ⟨hprep, .inl ⟨rfl, hdup⟩⟩
    · cases h
      exact .inl ⟨hprep, .inr ⟨rfl, rfl⟩⟩
    · exact .inr (.inl ⟨hcommit, (Except.ok.inj h).symm⟩)
    · cases h
      exact .inr (.inr (.inl ⟨habort, rfl, rfl⟩))
    · cases h
      exact .inr (.inr (.inr ⟨hprep, hcommit, habort, rfl⟩))

section

variable {s s' : Shard} {command error : Bytes} {c : TxnControlCommand}
  (hdecode : tryDecodeTxnControl command = .ok (some c))
  (happly : applyCallback s command = .ok (s', error))

include hdecode happly

lemma applyCallback_prepare (htype : c.type = kPrepare) : (s' = s ∧ error ≠ []) ∨
    (s'.participant = (s.participant.prepare c.txnId c.keys c.commands).1 ∧
      error = (s.participant.prepare c.txnId c.keys c.commands).2) := by
  rcases applyCallback_cases happly with ⟨hnone, -⟩ | ⟨c', hsome, hcases⟩
  · exact absurd (hdecode.symm.trans hnone) nofun
  · obtain rfl : c = c' := by simpa using hdecode.symm.trans hsome
    rcases hcases with ⟨-, hrefused | ⟨heq, -⟩⟩ | ⟨hcommit, -⟩ | ⟨habort,
      -⟩ | ⟨hne, -⟩
    · exact .inl hrefused
    · exact .inr ⟨congrArg Prod.fst heq, congrArg Prod.snd heq⟩
    · exact absurd (htype.symm.trans hcommit) (by decide)
    · exact absurd (htype.symm.trans habort) (by decide)
    · exact absurd htype hne

/-- After a COMMIT or an ABORT the transaction is no longer pending, and nothing else has
changed. -/
lemma find_applyCallback_resolution (htype : c.type = kCommit ∨ c.type = kAbort) (t : ℕ) :
    s'.participant.pending.find t =
      if t = c.txnId then none else s.participant.pending.find t := by
  rcases applyCallback_cases happly with ⟨hnone, -⟩ | ⟨c', hsome, hcases⟩
  · exact absurd (hdecode.symm.trans hnone) nofun
  · obtain rfl : c = c' := by simpa using hdecode.symm.trans hsome
    rcases hcases with ⟨hprepare, -⟩ | ⟨-, heq⟩ | ⟨-, heq, -⟩ | ⟨-,
      hcommit, habort, -⟩
    · rcases htype with h | h <;> exact absurd (hprepare.symm.trans h) (by decide)
    · rw [show s' = (commit s c.txnId).1 from congrArg Prod.fst heq, find_commit]
    · rw [show s'.participant = (s.participant.abort c.txnId).1 from congrArg Prod.fst heq,
        TxnParticipant.find_abort]
    · exact absurd htype (by tauto)

end

lemma wellLocked_applyCallback {s s' : Shard} {command error : Bytes}
    (hs : s.participant.WellLocked) (h : applyCallback s command = .ok (s', error)) :
    s'.participant.WellLocked := by
  rcases applyCallback_cases h with
    ⟨-, heq⟩ | ⟨c, -,
      ⟨-, ⟨rfl, -⟩ | ⟨heq, -⟩⟩ | ⟨-, heq⟩ | ⟨-, heq, -⟩ | ⟨-, -, -, heq⟩⟩
  · rwa [heq]
  · exact hs
  · rw [(Prod.mk.inj heq).1]
    exact hs.prepare _ _
  · rw [(Prod.mk.inj heq).1]
    exact wellLocked_commit hs _
  · rw [(Prod.mk.inj heq).1]
    exact hs.abort
  · rwa [heq]

end DistDB.TxnModel
