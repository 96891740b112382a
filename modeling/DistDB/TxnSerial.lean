import Mathlib.Logic.Relation
import DistDB.TxnAgreement

/-!
Concurrent transactions are serialisable.

A shard locks the keys of a transaction with its yes vote and keeps them until it runs the
statements, and a coordinator lets no shard run them before every shard has voted. So when a shard
runs a transaction before another one with a common key, no shard has run the other one by then
(`ran_before`), and the order in which transactions run on their common keys has no cycle
(`serialisable`).
-/

namespace DistDB.TxnSystem

open TxnModel

variable {s s' : System} {e : Event} {sid : ShardId} {t t' : ℕ} {q : Pending}

/-! ### What a step does to the pending transactions -/

/-- A transaction becomes pending by a PREPARE of its call, and stays so up to a COMMIT or an
ABORT. -/
lemma find_step (hinv : Inv s) (hstep : Step s e s') (hkeeps : e ≠ .restartShard sid) (t : ℕ) :
    (s'.shards sid).participant.pending.find t = (s.shards sid).participant.pending.find t ∨
    Receives kCommit sid t e ∨ Receives kAbort sid t e ∨
    ∃ c ∈ s.calls, c.txnId = t ∧ sid ∈ c.shardIds ∧
      (s.shards sid).participant.pending.find t = none := by
  cases e with
  | begin c buffer =>
    obtain ⟨-, -, rfl⟩ := System.step_begin hstep
    exact .inl rfl
  | reply i reply =>
    obtain ⟨c, r, -, -, -, rfl⟩ := System.step_reply hstep
    exact .inl rfl
  | apply r =>
    obtain ⟨i, sid', command⟩ := r
    obtain ⟨hsent, shard, error, happly, rfl⟩ := System.step_apply hstep
    dsimp only at happly ⊢
    rw [System.shards_setShard]
    split_ifs with hsid
    swap
    · exact .inl rfl
    subst hsid
    obtain ⟨c, hc, hsends⟩ := hinv.sent _ hsent
    have hcall := List.mem_of_getElem? hc
    have hlt := hinv.txnId_lt hcall
    dsimp only at hsends
    -- only the COMMIT and the ABORT of `t` touch it
    have hresolved : ∀ {type : ℕ}, type = kCommit ∨ type = kAbort →
        command = encodeControl type c.txnId →
        shard.participant.pending.find t = (s.shards sid).participant.pending.find t ∨
          Receives type sid t (.apply (i, sid, command)) := by
      rintro type htype rfl
      have hdecode := tryDecode_resolution htype hlt
      rw [find_applyCallback_resolution hdecode happly htype]
      split_ifs with ht
      · exact .inr ⟨rfl, _, hdecode, rfl, ht.symm⟩
      · exact .inl rfl
    cases hsends with
    | @prepare p hp =>
      rcases applyCallback_cases happly with ⟨-, heq⟩ | ⟨control, hdecode, hcases⟩
      · exact .inl (congrArg (·.pending.find t) heq)
      · have hid := (Call.find_prepares hp).1
        obtain ⟨htype, htxn⟩ := tryDecode_prepare_txnId (hid ▸ hlt) hdecode
        rcases applyCallback_prepare hdecode happly htype with ⟨rfl, -⟩ | ⟨heq, -⟩
        · exact .inl rfl
        rw [heq]
        by_cases ht : t = control.txnId
        · rcases TxnParticipant.prepare_cases (s.shards sid).participant control.txnId control.keys
            control.commands with hsame | ⟨hnone, -⟩
          · exact .inl (by rw [hsame])
          · refine .inr (.inr (.inr ⟨c, hcall, ?_, ?_, ht ▸ hnone⟩))
            · rw [ht, htxn, hid]
            · exact List.mem_map.mpr ⟨_, (OrdMap.mem_entries _).mpr hp, rfl⟩
        · exact .inl (TxnParticipant.find_prepare ht)
    | commit => exact (hresolved (.inl rfl) rfl).imp_right .inl
    | abort => exact (hresolved (.inr rfl) rfl).imp_right fun h => .inr (.inl h)
  | client sid' command =>
    obtain ⟨shard, error, hdecode, happly, rfl⟩ := System.step_client hstep
    rw [System.shards_setShard]
    split_ifs with hsid
    swap
    · exact .inl rfl
    subst hsid
    rcases applyCallback_cases happly with ⟨-, heq⟩ | ⟨control, hsome, -⟩
    · exact .inl (congrArg (·.pending.find t) heq)
    · cases hdecode.symm.trans hsome
  | restartCoordinator c =>
    obtain rfl := Option.some.inj hstep
    exact .inl rfl
  | restartShard sid' =>
    obtain rfl := Option.some.inj hstep
    rw [System.shards_setShard]
    split_ifs with hsid
    · exact absurd (congrArg Event.restartShard hsid.symm) hkeeps
    · exact .inl rfl

/-- What is pending on a shard is part of a call. -/
def Known (s : System) : Prop := ∀ sid t, ((s.shards sid).participant.pending.find t).isSome →
  ∃ c ∈ s.calls, c.txnId = t ∧ sid ∈ c.shardIds

/-- Transaction ids are used once, and no shard forgets what it has voted for. -/
def Steady (s : System) (e : Event) : Prop := DistinctIds s e ∧ ∀ sid, e ≠ .restartShard sid

lemma resolved_of_receives (hstep : Step s e s') {type : TxnControlType}
    (htype : type = kCommit ∨ type = kAbort) (h : Receives type sid t e) :
    (s'.shards sid).participant.pending.find t = none := by
  cases e with
  | apply r =>
    obtain ⟨i, sid', command⟩ := r
    obtain ⟨rfl, control, hdecode, rfl, rfl⟩ := h
    obtain ⟨-, shard, error, happly, rfl⟩ := System.step_apply hstep
    show ((s.setShard sid' shard).shards sid').participant.pending.find _ = none
    rw [System.shards_setShard, if_pos rfl, find_applyCallback_resolution hdecode happly htype,
      if_pos rfl]
  | begin | reply | client | restartCoordinator | restartShard => exact h.elim

lemma known_step (hinv : Inv s) (h : Known s) (hok : Steady s e) (hstep : Step s e s') :
    Known s' := by
  intro sid t hpending
  have hcalls : ∀ c ∈ s.calls, c ∈ s'.calls := by
    intro c hc
    obtain ⟨i, hi⟩ := List.mem_iff_getElem?.mp hc
    exact List.mem_of_getElem? ((sent_step hstep).2 i c hi)
  rcases find_step hinv hstep (hok.2 sid) t with hsame | hcommit | habort | ⟨c, hc, ht, hmem, -⟩
  · rw [hsame] at hpending
    obtain ⟨c, hc, hnamed⟩ := h sid t hpending
    exact ⟨c, hcalls c hc, hnamed⟩
  · rw [resolved_of_receives hstep (.inl rfl) hcommit] at hpending
    cases hpending
  · rw [resolved_of_receives hstep (.inr rfl) habort] at hpending
    cases hpending
  · exact ⟨c, hcalls c hc, ht, hmem⟩

lemma known_reach (h : Reach Step Steady .init s) : Known s :=
  h.invariant_of (fun _ h => Inv.reach h) (fun _ _ h => by cases h)
    fun _ _ _ hinv _ hs hok hstep => known_step hinv hs hok hstep

lemma find_kept {later earlier : List (System × Event)} {x : System × Event}
    (h : Trace Step Steady .init (later ++ x :: earlier) s) {s₁ : System}
    (hstep : Step x.1 x.2 s₁) (hq : (s₁.shards sid).participant.pending.find t = some q)
    (hcommit : ∀ y ∈ later, ¬ Receives kCommit sid t y.2)
    (hdiscards : ∀ y ∈ later, ¬ Discards sid t y) :
    (s.shards sid).participant.pending.find t = some q := by
  induction later generalizing s with
  | nil =>
    cases h with
    | tail _ _ hs =>
      obtain rfl := Option.some.inj (hstep.symm.trans hs)
      exact hq
  | cons y later ih =>
    cases h with
    | @tail _ s₀ _ e hrun hok hs =>
      obtain ⟨hy, hcommit⟩ := List.forall_mem_cons.mp hcommit
      obtain ⟨hdrops, hdiscards⟩ := List.forall_mem_cons.mp hdiscards
      have hold := ih hrun hcommit hdiscards
      rcases find_step (Inv.reach hrun.reach) hs (hok.2 sid) t with
        hsame | h | h | ⟨-, -, -, -, h⟩
      · rw [hsame, hold]
      · exact absurd h hy
      · exact absurd ⟨h, by rw [hold]; rfl⟩ hdrops
      · rw [hold] at h
        cases h

lemma pending_of_votes {x : System × Event} {s₁ : System} (h : Votes sid t x)
    (hstep : Step x.1 x.2 s₁) :
    ((s₁.shards sid).participant.pending.find t).isSome := by
  obtain ⟨hreceives, i, command, shard, hevent, happly⟩ := h
  rw [hevent] at hreceives hstep
  obtain ⟨-, control, hdecode, htype, rfl⟩ := hreceives
  obtain ⟨-, shard', error, happly', rfl⟩ := System.step_apply hstep
  obtain ⟨rfl, -⟩ := Prod.mk.inj (Except.ok.inj (happly.symm.trans happly'))
  show (((x.1.setShard sid shard).shards sid).participant.pending.find _).isSome
  rw [System.shards_setShard, if_pos rfl]
  rcases applyCallback_prepare hdecode happly htype with ⟨-, hno⟩ | ⟨heq, hvote⟩
  · exact absurd rfl hno
  · rw [heq]
    exact TxnParticipant.prepare_pending hvote.symm

section

variable {tr later earlier : List (System × Event)} {x y : System × Event}

lemma sent_of_receives (h : Trace Step DistinctIds .init tr s) (hx : x ∈ tr)
    {type : TxnControlType} (hreceives : Receives type sid t x.2)
    (htype : type = kCommit ∨ type = kAbort) :
    ∃ i c, s.calls[i]? = some c ∧ c.txnId = t ∧
      (i, sid, encodeControl type t) ∈ s.sent := by
  obtain ⟨later, earlier, rfl⟩ := List.append_of_mem hx
  obtain ⟨hbefore, -, s₁, hstep, hafter⟩ := h.split
  obtain ⟨i, c, hc, ht, hsent⟩ := receives_sent (Inv.reach hbefore.reach) hstep hreceives htype
  obtain ⟨hsent₁, hcalls₁⟩ := sent_step hstep
  obtain ⟨hsent₂, hcalls₂⟩ := sent_reach hafter
  exact ⟨i, c, hcalls₂ i c (hcalls₁ i c hc), ht, hsent₂ (hsent₁ hsent)⟩

lemma not_discards (h : Trace Step DistinctIds .init tr s) (hx : x ∈ tr)
    (hcommit : Receives kCommit sid t x.2) (hy : y ∈ tr) (sid' : ShardId) :
    ¬ Discards sid' t y := by
  intro hdiscards
  obtain ⟨i, c, hc, rfl, hsent⟩ := sent_of_receives h hx hcommit (.inl rfl)
  obtain ⟨j, c', hc', hid, hsent'⟩ := sent_of_receives h hy hdiscards.1 (.inr rfl)
  have hdecided := Decided.reach h.reach
  obtain rfl := hdecided.unique hc' hc hid
  rcases (hdecided.phase hc).decided with hnot | ⟨-, hnot⟩
  · exact hnot sid hsent
  · exact hnot sid' hsent'

lemma voted_of_receives (h : Trace Step DistinctIds .init (later ++ x :: earlier) s)
    (hcommit : Receives kCommit sid t x.2) : ∃ c ∈ x.1.calls, c.txnId = t ∧
      ∀ sid' ∈ c.shardIds, ∃ y ∈ earlier, Votes sid' t y := by
  obtain ⟨hbefore, -, s₁, hstep, -⟩ := h.split
  have hinv := Inv.reach hbefore.reach
  obtain ⟨i, c, hc, rfl, hsent⟩ := receives_sent hinv hstep hcommit (.inl rfl)
  refine ⟨c, List.mem_of_getElem? hc, rfl, fun sid' hsid' => ?_⟩
  rcases ((Decided.reach hbefore.reach).phase hc).decided with hnot | ⟨hvoted, -⟩
  · exact absurd hsent (hnot sid)
  · obtain ⟨p, hp, hdone⟩ := hvoted sid' hsid'
    obtain ⟨y, hy, hevent, shard, happly⟩ := answered hbefore hdone
    exact ⟨y, hy, votes_of_answer hinv hc hp hevent happly⟩

end

/-! ### The order of the transactions -/

/-- No COMMIT is applied twice on a shard. -/
def OnceCommitted (tr : List (System × Event)) : Prop := tr.Pairwise fun x y =>
  ∀ sid t, Receives kCommit sid t x.2 → ¬ Receives kCommit sid t y.2

/-- The shard runs `t`, of which this is pending. -/
def Runs (sid : ShardId) (t : ℕ) (q : Pending) (x : System × Event) : Prop :=
  Executes sid t x ∧ (x.1.shards sid).participant.pending.find t = some q

/-- On some shard, `t` runs before `t'`, and both have locked the same key. -/
def Precedes (tr : List (System × Event)) (t t' : ℕ) : Prop :=
  t ≠ t' ∧ ∃ sid later y middle x earlier q q',
    tr = later ++ y :: (middle ++ x :: earlier) ∧ Runs sid t q x ∧ Runs sid t' q' y ∧
      ∃ k, k ∈ q.keys ∧ k ∈ q'.keys

lemma ran_before {later middle earlier : List (System × Event)} {x y : System × Event}
    {q' : Pending} (h : Trace Step Steady .init (later ++ y :: (middle ++ x :: earlier)) s)
    (honce : OnceCommitted (later ++ y :: (middle ++ x :: earlier))) (hne : t ≠ t')
    (hx : Runs sid t q x) (hy : Runs sid t' q' y) (hkey : ∃ k, k ∈ q.keys ∧ k ∈ q'.keys) :
    ∀ sid', ∀ z ∈ earlier, ¬ Executes sid' t' z := by
  intro sid' z hz hexecutes
  have hdistinct := h.mono fun _ _ hok => hok.1
  obtain ⟨e₁, e₂, rfl⟩ := List.append_of_mem hz
  obtain ⟨hy₀, -, -, -, -⟩ := h.split
  obtain ⟨hx₀, -, -, -, -⟩ := hy₀.split
  obtain ⟨c, hc, hid, hvotes⟩ := voted_of_receives (hx₀.mono fun _ _ hok => hok.1) hexecutes.1
  -- the shard is one of those that have voted for `t'` before `z`
  have hmem : sid ∈ c.shardIds := by
    obtain ⟨c', hc', hid', hmem⟩ := known_reach hy₀.reach sid t' (by rw [hy.2]; rfl)
    have hz₀ : Trace Step Steady .init
      ((middle ++ x :: e₁) ++ z :: e₂) y.1 := by simpa using hy₀
    obtain ⟨-, -, s₁, hs₁, hafter⟩ := hz₀.split
    obtain ⟨i, hi⟩ := List.mem_iff_getElem?.mp hc
    obtain ⟨j, hj⟩ := List.mem_iff_getElem?.mp hc'
    have hkept := (sent_reach hafter).2 i c ((sent_step hs₁).2 i c hi)
    obtain rfl := (Decided.reach (hy₀.mono fun _ _ hok => hok.1).reach).unique hkept hj
      (hid.trans hid'.symm)
    exact Option.some.inj (hj.symm.trans hkept) ▸ hmem
  obtain ⟨p, hp, hvote⟩ := hvotes sid hmem
  obtain ⟨f₁, f₂, rfl⟩ := List.append_of_mem hp
  -- from the vote to `y`, `t'` is neither run nor discarded there
  have hquiet : ∀ w ∈ middle ++ x :: (e₁ ++ z :: f₁),
      ¬ Receives kCommit sid t' w.2 ∧ ¬ Discards sid t' w := by
    intro w hw
    have hbehind : w ∈ middle ++ x :: (e₁ ++ z :: (f₁ ++ p :: f₂)) := by
      simp only [List.mem_append, List.mem_cons] at hw ⊢
      tauto
    obtain ⟨-, honce, -⟩ := List.pairwise_append.mp honce
    refine ⟨(List.pairwise_cons.mp honce).1 w hbehind sid t' hy.1.1,
      not_discards hdistinct (List.mem_append_right _ List.mem_cons_self) hy.1.1
        (List.mem_append_right _ (List.mem_cons_of_mem _ hbehind)) sid⟩
  have hx₁ : Trace Step Steady .init
    ((e₁ ++ z :: f₁) ++ p :: f₂) x.1 := by simpa using hx₀
  have hy₁ : Trace Step Steady .init ((middle ++ x :: (e₁ ++ z :: f₁)) ++ p :: f₂) y.1 := by
    simpa using hy₀
  obtain ⟨-, -, s₁, hs₁, -⟩ := hx₁.split
  obtain ⟨q₀, hq₀⟩ := Option.isSome_iff_exists.mp (pending_of_votes hvote hs₁)
  have hatx := find_kept hx₁ hs₁ hq₀
    (fun w hw => (hquiet w (List.mem_append_right _ (List.mem_cons_of_mem _ hw))).1)
    fun w hw => (hquiet w (List.mem_append_right _ (List.mem_cons_of_mem _ hw))).2
  have haty := find_kept hy₁ hs₁ hq₀ (fun w hw => (hquiet w hw).1) fun w hw => (hquiet w hw).2
  -- so both hold the key at `x`
  obtain ⟨k, hk, hk'⟩ := hkey
  obtain rfl := Option.some.inj (hy.2.symm.trans haty)
  exact hne (((Inv.reach hx₀.reach).locked sid).apart hx.2 hatx hk hk')

/-- Some shard runs `t` behind so many steps. -/
def RunAt (tr : List (System × Event)) (t n : ℕ) : Prop :=
  ∃ x earlier sid, x :: earlier <:+ tr ∧ earlier.length = n ∧ Executes sid t x

lemma executes_inj {x : System × Event} {sid' : ShardId} (h : Executes sid t x)
    (h' : Executes sid' t' x) : t = t' := by
  obtain ⟨s, e⟩ := x
  cases e with
  | apply r =>
    obtain ⟨-, control, hdecode, -, rfl⟩ := h.1
    obtain ⟨-, control', hdecode', -, rfl⟩ := h'.1
    rw [Option.some.inj (Except.ok.inj (hdecode.symm.trans hdecode'))]
  | begin | reply | client | restartCoordinator | restartShard => exact h.1.elim

lemma runAt_of_precedes {tr : List (System × Event)} {n : ℕ} (h : Trace Step Steady .init tr s)
    (honce : OnceCommitted tr) (hprec : Precedes tr t t') (hrun : RunAt tr t' n) :
    ∃ m < n, RunAt tr t m := by
  obtain ⟨hne, sid, later, y, middle, x, earlier, q, q', rfl, hx, hy, hkey⟩ := hprec
  obtain ⟨z, earlier', sid', hsuffix, rfl, hz⟩ := hrun
  have hx₀ : x :: earlier <:+ later ++ y :: (middle ++ x :: earlier) :=
    ⟨later ++ y :: middle, by simp⟩
  refine ⟨earlier.length, Nat.lt_of_not_le fun hle => ?_, x, earlier, sid, hx₀, rfl, hx.1⟩
  rcases List.suffix_cons_iff.mp
    (List.suffix_of_suffix_length_le hsuffix hx₀ (Nat.succ_le_succ hle)) with heq | hbefore
  · obtain ⟨rfl, rfl⟩ := List.cons.inj heq
    exact hne (executes_inj hx.1 hz)
  · exact ran_before h honce hne hx hy hkey sid' z (hbefore.mem List.mem_cons_self) hz

lemma runAt_of_transGen {tr : List (System × Event)} {n : ℕ} (h : Trace Step Steady .init tr s)
    (honce : OnceCommitted tr) (hprec : Relation.TransGen (Precedes tr) t t')
    (hrun : RunAt tr t' n) : ∃ m < n, RunAt tr t m := by
  induction hprec generalizing n with
  | single hprec => exact runAt_of_precedes h honce hprec hrun
  | tail _ hprec ih =>
    obtain ⟨m, hm, hrun⟩ := runAt_of_precedes h honce hprec hrun
    obtain ⟨l, hl, hrun⟩ := ih hrun
    exact ⟨l, hl.trans hm, hrun⟩

lemma runAt_of_first {tr : List (System × Event)} (hprec : Relation.TransGen (Precedes tr) t t') :
    ∃ n, RunAt tr t n := by
  have hfirst : ∀ {t t'}, Precedes tr t t' → ∃ n, RunAt tr t n := by
    rintro t t' ⟨-, sid, later, y, middle, x, earlier, q, q', rfl, hx, -⟩
    exact ⟨_, x, earlier, sid, ⟨later ++ y :: middle, by simp⟩, rfl, hx.1⟩
  induction hprec with
  | single hprec => exact hfirst hprec
  | tail _ _ ih => exact ih

/-- **Transactions are serialisable**: the order in which they run on the keys that they have in
common has no cycle, over all shards. -/
theorem serialisable {tr : List (System × Event)} (h : Trace Step Steady .init tr s)
    (honce : OnceCommitted tr) (t : ℕ) : ¬ Relation.TransGen (Precedes tr) t t := by
  intro hcycle
  have hnever : ∀ n, ¬ RunAt tr t n := by
    intro n
    induction n using Nat.strong_induction_on with
    | _ n ih =>
      intro hrun
      obtain ⟨m, hm, hrun⟩ := runAt_of_transGen h honce hcycle hrun
      exact ih m hm hrun
  obtain ⟨n, hrun⟩ := runAt_of_first hcycle
  exact hnever n hrun

def restartsShard : Event → Bool
  | .restartShard _ => true
  | _ => false

lemma steady_iff : Steady s e ↔ DistinctIds s e ∧ restartsShard e = false := by
  cases e <;> simp [Steady, restartsShard]

instance decidableSteady (s : System) (e : Event) : Decidable (Steady s e) :=
  decidable_of_iff _ steady_iff.symm

/-- The commands of two events are not the same COMMIT. -/
def apart (x y : System × Event) : Bool :=
  (received x.2).all fun r => decide (r.2.1 = kCommit → received y.2 ≠ some r)

lemma onceCommitted_of_apart {tr : List (System × Event)}
    (h : tr.Pairwise fun x y => apart x y = true) : OnceCommitted tr := by
  refine h.imp fun hapart sid t hx hy => ?_
  have hall := (Option.all_eq_true _ _).mp hapart _ (receives_iff.mp hx)
  exact of_decide_eq_true hall rfl (receives_iff.mp hy)

/-- The batch of `t` that the shard runs so many steps before the end. -/
def ranAt (tr : List (System × Event)) (i : ℕ) (sid : ShardId) (t : ℕ) : Option Pending :=
  (tr[i]?).bind (batchAt kCommit sid t)

lemma runs_of_ranAt {tr : List (System × Event)} {i : ℕ} (h : ranAt tr i sid t = some q)
    (hq : q.commands ≠ []) : ∃ x, tr[i]? = some x ∧ Runs sid t q x := by
  obtain ⟨x, hx, hbatch⟩ := Option.bind_eq_some_iff.mp h
  refine ⟨x, hx, executes_of_batchAt hbatch hq, ?_⟩
  unfold batchAt at hbatch
  split_ifs at hbatch
  exact hbatch

lemma split_of_getElem? {α : Type*} {l : List α} {i j : ℕ} {x y : α} (hij : i < j)
    (hy : l[i]? = some y) (hx : l[j]? = some x) :
    ∃ later middle earlier, l = later ++ y :: (middle ++ x :: earlier) := by
  obtain ⟨hi, rfl⟩ := List.getElem?_eq_some_iff.mp hy
  obtain ⟨hj, rfl⟩ := List.getElem?_eq_some_iff.mp hx
  refine ⟨l.take i, (l.drop (i + 1)).take (j - (i + 1)), l.drop (j + 1), ?_⟩
  have hlast : l.drop j = l[j] :: l.drop (j + 1) := List.drop_eq_getElem_cons hj
  have hmiddle : l.drop (i + 1) = (l.drop (i + 1)).take (j - (i + 1)) ++ l.drop j := by
    have hdrop : l.drop j = (l.drop (i + 1)).drop (j - (i + 1)) := by
      rw [List.drop_drop]
      congr 1
      omega
    rw [hdrop, List.take_append_drop]
  rw [← hlast, ← hmiddle, ← List.drop_eq_getElem_cons hi, List.take_append_drop]

def secondBuffer : List BufferedTxnStatement :=
  [⟨1, [97], text "DELETE FROM d.t WHERE k = 'a'"⟩,
    ⟨2, [98], text "DELETE FROM d.t WHERE k = 'b'"⟩]

/-- Two transactions with a common key on each of two shards. The second one is prepared on shard
one before shard two has run the first one. -/
def crossing : List Event := tables ++
  [.begin coordinatorOne spread, .apply (0, 1, spreadPrepareOne), .reply 0 (.response true []),
    .apply (0, 2, spreadPrepareTwo), .reply 0 (.response true []),
    .apply (0, 1, encodeTxnCommit firstTxn), .reply 0 (.response true []),
    .begin coordinatorTwo secondBuffer,
    .apply (1, 1, encodeTxnPrepare ⟨secondTxn, [[97]], [text "DELETE FROM d.t WHERE k = 'a'"]⟩),
    .reply 1 (.response true []), .apply (0, 2, encodeTxnCommit firstTxn),
    .apply (1, 2, encodeTxnPrepare ⟨secondTxn, [[98]], [text "DELETE FROM d.t WHERE k = 'b'"]⟩),
    .reply 1 (.response true []), .reply 0 (.response true []),
    .apply (1, 1, encodeTxnCommit secondTxn), .reply 1 (.response true []),
    .apply (1, 2, encodeTxnCommit secondTxn)]

/-- Both transactions run on both shards, the first one before the second one on each. -/
theorem serialisable_crossing : ∃ tr s,
    traceIf? System.step Steady [] .init crossing = some (tr, s) ∧ OnceCommitted tr ∧
    Precedes tr firstTxn secondTxn ∧
    ranAt tr 11 1 firstTxn = some ⟨[[97], [99]],
      [text "INSERT INTO d.t (k) VALUES ('a')", text "DELETE FROM d.t WHERE k = 'c'"]⟩ ∧
    ranAt tr 6 2 firstTxn = some ⟨[[98]], [text "INSERT INTO d.t (k) VALUES ('b')"]⟩ ∧
    ranAt tr 2 1 secondTxn = some ⟨[[97]], [text "DELETE FROM d.t WHERE k = 'a'"]⟩ ∧
    ranAt tr 0 2 secondTxn = some ⟨[[98]], [text "DELETE FROM d.t WHERE k = 'b'"]⟩ ∧
    ¬ Relation.TransGen (Precedes tr) firstTxn firstTxn := by
  obtain ⟨⟨tr, s⟩, hrun, hapart, hone, htwo, hone', htwo'⟩ := exists_of_any
    (x := traceIf? System.step Steady [] .init crossing) (P := fun p =>
      (p.1.Pairwise fun x y => apart x y = true) ∧
      ranAt p.1 11 1 firstTxn = some ⟨[[97], [99]],
        [text "INSERT INTO d.t (k) VALUES ('a')", text "DELETE FROM d.t WHERE k = 'c'"]⟩ ∧
      ranAt p.1 6 2 firstTxn = some ⟨[[98]], [text "INSERT INTO d.t (k) VALUES ('b')"]⟩ ∧
      ranAt p.1 2 1 secondTxn = some ⟨[[97]], [text "DELETE FROM d.t WHERE k = 'a'"]⟩ ∧
      ranAt p.1 0 2 secondTxn = some ⟨[[98]], [text "DELETE FROM d.t WHERE k = 'b'"]⟩)
    (by decide +kernel)
  dsimp only at hapart hone htwo hone' htwo'
  have honce := onceCommitted_of_apart hapart
  obtain ⟨x, hx, hrunsx⟩ := runs_of_ranAt htwo (List.cons_ne_nil _ _)
  obtain ⟨y, hy, hrunsy⟩ := runs_of_ranAt htwo' (List.cons_ne_nil _ _)
  obtain ⟨later, middle, earlier, htr⟩ := split_of_getElem? (by decide) hy hx
  exact ⟨tr, s, hrun, honce,
    ⟨by decide, 2, later, y, middle, x, earlier, _, _, htr, hrunsx, hrunsy, [98],
      List.mem_cons_self, List.mem_cons_self⟩, hone, htwo, hone', htwo',
    serialisable (trace_traceIf? .refl hrun) honce firstTxn⟩

end DistDB.TxnSystem
