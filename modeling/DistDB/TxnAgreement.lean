import DistDB.TxnRelease

/-!
Agreement of two-phase commit: no shard runs the statements of a transaction that another shard has
not voted for, or has discarded.

A call decides once. It sends a COMMIT only after every shard has answered its PREPARE with a yes
vote, and an ABORT only while it has sent no COMMIT; that is what the phase of a call says of what
it has sent and of what was answered (`PhaseOk`). How often and how late a request is applied, and
which replies are lost, does not matter.
-/

namespace DistDB.TxnSystem

open TxnModel Checks

/-- A control command of this type for the transaction `t` is applied on the shard. -/
def Receives (type : TxnControlType) (sid : ShardId) (t : ℕ) : Event → Prop
  | .apply (_, sid', command) => sid' = sid ∧ ∃ control,
    tryDecodeTxnControl command = .ok (some control) ∧ control.type = type ∧ control.txnId = t
  | _ => False

/-- The shard votes yes on a PREPARE of `t`. -/
def Votes (sid : ShardId) (t : ℕ) (x : System × Event) : Prop :=
  Receives kPrepare sid t x.2 ∧ ∃ i command shard, x.2 = .apply (i, sid, command) ∧
    applyCallback (x.1.shards sid) command = .ok (shard, [])

/-- The shard runs a batch of `t` that is not empty. -/
def Executes (sid : ShardId) (t : ℕ) (x : System × Event) : Prop :=
  Receives kCommit sid t x.2 ∧
    ∃ q, (x.1.shards sid).participant.pending.find t = some q ∧ q.commands ≠ []

/-- The shard drops the batch of `t`. -/
def Discards (sid : ShardId) (t : ℕ) (x : System × Event) : Prop :=
  Receives kAbort sid t x.2 ∧ ((x.1.shards sid).participant.pending.find t).isSome

/-- Transaction ids are used once. -/
def DistinctIds (s : System) : Event → Prop
  | .begin c _ => ∀ call ∈ s.calls, call.txnId ≠ s.nextTxnId c
  | _ => True

/-! ### What a call has decided -/

def NotSent (s : System) (i : ℕ) (command : Bytes) : Prop := ∀ sid, (i, sid, command) ∉ s.sent

def Voted (s : System) (i : ℕ) (c : Call) (sid : ShardId) : Prop :=
  ∃ p, c.prepares.find sid = some p ∧ (i, sid, encodeTxnPrepare p) ∈ s.done

def AllVoted (s : System) (i : ℕ) (c : Call) : Prop := ∀ sid ∈ c.shardIds, Voted s i c sid

/-- What the phase of a call says. -/
def PhaseOk (s : System) (i : ℕ) (c : Call) : Phase → Prop
  | .preparing _ todo => (∀ sid ∈ c.shardIds, sid ∈ todo ∨ Voted s i c sid) ∧
    NotSent s i (encodeTxnCommit c.txnId) ∧ NotSent s i (encodeTxnAbort c.txnId)
  | .aborting .. => NotSent s i (encodeTxnCommit c.txnId)
  | .committing .. => AllVoted s i c ∧ NotSent s i (encodeTxnAbort c.txnId)
  | .lost => NotSent s i (encodeTxnCommit c.txnId) ∨
    (AllVoted s i c ∧ NotSent s i (encodeTxnAbort c.txnId))

structure Decided (s : System) : Prop where
  unique : ∀ {i j : ℕ} {c c' : Call}, s.calls[i]? = some c → s.calls[j]? = some c' →
    c.txnId = c'.txnId → i = j
  phase : ∀ {i : ℕ} {c : Call}, s.calls[i]? = some c → PhaseOk s i c (s.phases i)

lemma encodeTxnPrepare_ne_commit (p : TxnPrepare) (txnId : ℕ) :
    encodeTxnPrepare p ≠ encodeTxnCommit txnId := by
  intro h
  have := congrArg (·[1]?) h
  simp [encodeTxnPrepare, encodeTxnCommit, encodeControl, Bytes.le, kPrepare, kCommit] at this

lemma encodeTxnCommit_ne_abort (t txnId : ℕ) : encodeTxnCommit t ≠ encodeTxnAbort txnId := by
  intro h
  have := congrArg (·[1]?) h
  simp [encodeTxnCommit, encodeTxnAbort, encodeControl, Bytes.le, kCommit, kAbort] at this

section

variable {s s' : System} {i : ℕ} {c : Call} {phase : Phase}

lemma PhaseOk.decided (h : PhaseOk s i c phase) : NotSent s i (encodeTxnCommit c.txnId) ∨
    (AllVoted s i c ∧ NotSent s i (encodeTxnAbort c.txnId)) := by
  cases phase with
  | preparing prepared todo => exact .inl h.2.1
  | aborting => exact .inl h
  | committing => exact .inr h
  | lost => exact h

lemma Voted.mono {sid : ShardId} (hdone : s.done ⊆ s'.done) (h : Voted s i c sid) :
    Voted s' i c sid := by
  obtain ⟨p, hp, hin⟩ := h
  exact ⟨p, hp, hdone hin⟩

lemma PhaseOk.mono (hsent : ∀ sid command, (i, sid, command) ∈ s'.sent →
    (i, sid, command) ∈ s.sent) (hdone : s.done ⊆ s'.done) (h : PhaseOk s i c phase) :
    PhaseOk s' i c phase := by
  have hnot : ∀ {command}, NotSent s i command → NotSent s' i command :=
    fun hnot sid hin => hnot sid (hsent sid _ hin)
  have hall : AllVoted s i c → AllVoted s' i c := fun hall sid hsid => (hall sid hsid).mono hdone
  cases phase with
  | preparing prepared todo =>
    exact ⟨fun sid hsid => (h.1 sid hsid).imp_right (Voted.mono hdone), hnot h.2.1, hnot h.2.2⟩
  | aborting => exact hnot h
  | committing => exact ⟨hall h.1, hnot h.2⟩
  | lost => exact h.imp hnot (And.imp hall hnot)

lemma PhaseOk.proceed (h : PhaseOk s i c phase) : PhaseOk (s.proceed i c phase) i c phase := by
  have hnot : ∀ {command}, NotSent s i command →
      (∀ r, c.request phase = some r → r.2 ≠ command) →
      NotSent (s.proceed i c phase) i command := by
    intro command hnot hne sid hin
    rcases List.mem_append.mp hin with hin | hin
    · exact hnot sid hin
    · obtain ⟨r, hr, heq⟩ := List.mem_map.mp hin
      exact hne r (Option.mem_toList.mp hr) (Prod.mk.inj (Prod.mk.inj heq).2).2
  cases phase with
  | preparing prepared todo =>
    have hprepare : ∀ r, c.request (.preparing prepared todo) = some r →
        ∃ p, r.2 = encodeTxnPrepare p := by
      intro r hr
      cases todo with
      | nil => cases hr
      | cons sid todo =>
        obtain ⟨p, -, rfl⟩ := Option.map_eq_some_iff.mp hr
        exact ⟨p, rfl⟩
    refine ⟨h.1, hnot h.2.1 fun r hr => ?_, hnot h.2.2 fun r hr => ?_⟩
    · obtain ⟨p, hp⟩ := hprepare r hr
      exact hp ▸ encodeTxnPrepare_ne_commit p _
    · obtain ⟨p, hp⟩ := hprepare r hr
      exact hp ▸ encodeTxnPrepare_ne_abort p _
  | aborting prepared reason failures todo =>
    refine hnot h fun r hr => ?_
    cases todo with
    | nil => cases hr
    | cons sid todo =>
      cases hr
      exact (encodeTxnCommit_ne_abort _ _).symm
  | committing failures todo =>
    refine ⟨h.1, hnot h.2 fun r hr => ?_⟩
    cases todo with
    | nil => cases hr
    | cons sid todo =>
      cases hr
      exact encodeTxnCommit_ne_abort _ _
  | lost => exact h.imp (fun h => hnot h nofun) (And.imp_right fun h => hnot h nofun)

lemma phaseOk_prepareNext {prepared todo : List ShardId}
    (hvoted : ∀ sid ∈ c.shardIds, sid ∈ todo ∨ Voted s i c sid)
    (hcommit : NotSent s i (encodeTxnCommit c.txnId))
    (habort : NotSent s i (encodeTxnAbort c.txnId)) :
    PhaseOk s i c (c.prepareNext prepared todo) := by
  unfold Call.prepareNext
  split_ifs with htodo
  · subst htodo
    exact ⟨fun sid hsid => (hvoted sid hsid).resolve_left List.not_mem_nil, habort⟩
  · exact ⟨hvoted, hcommit, habort⟩

lemma PhaseOk.receive {reply : Reply} {r : ShardId × Bytes} (h : PhaseOk s i c phase)
    (hr : c.request phase = some r)
    (hreply : (reply.failure r.1).isSome ∨ (i, r.1, r.2) ∈ s.done) :
    PhaseOk s i c (c.receive reply phase) := by
  cases phase with
  | preparing prepared todo =>
    cases todo with
    | nil => cases hr
    | cons sid todo =>
      obtain ⟨p, hp, rfl⟩ := Option.map_eq_some_iff.mp hr
      simp only [Call.receive]
      split
      · exact h.2.1
      · rename_i hnone
        rw [hnone] at hreply
        have hdone := hreply.resolve_left Bool.false_ne_true
        refine phaseOk_prepareNext (fun sid' hsid' => ?_) h.2.1 h.2.2
        rcases h.1 sid' hsid' with hin | hvoted
        · rcases List.mem_cons.mp hin with rfl | hin
          · exact .inr ⟨p, hp, hdone⟩
          · exact .inl hin
        · exact .inr hvoted
  | aborting prepared reason failures todo =>
    cases todo with
    | nil => cases hr
    | cons sid todo => exact h
  | committing failures todo =>
    cases todo with
    | nil => cases hr
    | cons sid todo => exact h
  | lost => cases hr

end

namespace Decided

variable {s s' : System}

lemma init : Decided .init where
  unique := fun h => by simp [System.init] at h
  phase := fun h => by simp [System.init] at h

lemma proceed (h : Decided s) {i : ℕ} {c : Call} {phase : Phase} (hc : s.calls[i]? = some c)
    (hphase : PhaseOk s i c phase) : Decided (s.proceed i c phase) where
  unique := h.unique
  phase := by
    intro j c' hc'
    have hphases : (s.proceed i c phase).phases j = if j = i then phase else s.phases j :=
      Function.update_apply ..
    rw [hphases]
    split_ifs with hji
    · subst hji
      obtain rfl : c' = c := Option.some.inj (hc'.symm.trans hc)
      exact hphase.proceed
    · refine @PhaseOk.mono s _ j c' _ (fun sid command hin => ?_)
        (List.Subset.refl _) (h.phase hc')
      rcases List.mem_append.mp hin with hin | hin
      · exact hin
      · obtain ⟨r, -, heq⟩ := List.mem_map.mp hin
        exact absurd (Prod.mk.inj heq).1.symm hji

lemma newCall (h : Decided s) (hinv : Inv s) {c : Coordinator} {buffer : List BufferedTxnStatement}
    (hok : DistinctIds s (.begin c buffer)) : Decided (s.newCall c buffer) := by
  have hnone : ∀ command, NotSent s s.calls.length command := by
    intro command sid hin
    obtain ⟨c', hc', -⟩ := hinv.sent _ hin
    exact absurd (List.getElem?_eq_some_iff.mp hc').1 (lt_irrefl _)
  have henroll : Decided (s.enroll ⟨c, s.nextTxnId c, buffer⟩) := by
    refine ⟨fun {i j c₁ c₂} hc₁ hc₂ hid => ?_, fun {i c'} hc' => ?_⟩
    · rcases System.calls_enroll hc₁ with hc₁ | ⟨rfl, rfl⟩ <;>
        rcases System.calls_enroll hc₂ with hc₂ | ⟨rfl, rfl⟩
      · exact h.unique hc₁ hc₂ hid
      · exact absurd hid (hok _ (List.mem_of_getElem? hc₁))
      · exact absurd hid.symm (hok _ (List.mem_of_getElem? hc₂))
      · rfl
    · rcases System.calls_enroll hc' with hc' | ⟨rfl, rfl⟩
      · rw [System.phases_enroll hc']
        exact h.phase hc'
      · have hlost : (s.enroll ⟨c, s.nextTxnId c, buffer⟩).phases s.calls.length = .lost :=
          Function.update_self ..
        rw [hlost]
        exact .inl (hnone _)
  refine henroll.proceed (List.getElem?_concat_length ..) ?_
  exact phaseOk_prepareNext (fun _ hsid => .inl hsid) (hnone _) (hnone _)

lemma quiet (h : Decided s) (hcalls : s'.calls = s.calls) (hphases : s'.phases = s.phases)
    (hsent : s'.sent = s.sent) (hdone : s.done ⊆ s'.done) : Decided s' where
  unique := by
    rw [hcalls]
    exact h.unique
  phase := by
    intro i c hc
    rw [hcalls] at hc
    rw [hphases]
    exact (h.phase hc).mono (fun _ _ hin => hsent ▸ hin) hdone

lemma restart (h : Decided s) (c : Coordinator) : Decided (s.restart c) where
  unique := h.unique
  phase := by
    intro i c' hc'
    have hphases : (s.restart c).phases i =
        if c'.coordinator = c then c'.lose (s.phases i) else s.phases i := by
      have hcall : s.calls[i]? = some c' := hc'
      unfold System.restart
      dsimp only
      rw [hcall]
    have hphase : PhaseOk s i c' (s.phases i) := h.phase hc'
    have hlost : PhaseOk s i c' .lost := hphase.decided
    rw [hphases, Call.lose]
    split_ifs
    · exact hphase
    · exact hlost
    · exact hphase

/-- **A call decides once**: every step keeps it so. -/
theorem step (h : Decided s) (hinv : Inv s) {e : Event} (hok : DistinctIds s e)
    (hstep : Step s e s') : Decided s' := by
  cases e with
  | begin c buffer =>
    obtain ⟨-, -, rfl⟩ := System.step_begin hstep
    exact h.newCall hinv hok
  | reply i reply =>
    obtain ⟨c, r, hc, hr, hreply, rfl⟩ := System.step_reply hstep
    exact h.proceed hc ((h.phase hc).receive hr hreply)
  | apply r =>
    obtain ⟨-, shard, error, -, rfl⟩ := System.step_apply hstep
    refine h.quiet rfl rfl rfl fun r' hr' => ?_
    show r' ∈ if error = [] then s.done ++ [r] else s.done
    split_ifs
    · exact List.mem_append_left _ hr'
    · exact hr'
  | client sid command =>
    obtain ⟨shard, error, -, -, rfl⟩ := System.step_client hstep
    exact h.quiet rfl rfl rfl (List.Subset.refl _)
  | restartCoordinator c =>
    obtain rfl := Option.some.inj hstep
    exact h.restart c
  | restartShard sid =>
    obtain rfl := Option.some.inj hstep
    exact h.quiet rfl rfl rfl (List.Subset.refl _)

theorem reach (h : Reach Step DistinctIds .init s) : Decided s :=
  h.invariant_of (fun _ h => Inv.reach h) init fun _ _ _ hinv _ hs hok hstep =>
    hs.step hinv hok hstep

end Decided

/-! ### Agreement -/

section

variable {s s' : System}

lemma sent_step {e : Event} (hstep : Step s e s') :
    s.sent ⊆ s'.sent ∧ ∀ (i : ℕ) (c : Call), s.calls[i]? = some c →
      s'.calls[i]? = some c := by
  cases e with
  | begin c buffer =>
    obtain ⟨-, -, rfl⟩ := System.step_begin hstep
    refine ⟨List.subset_append_left _ _, fun i c' hc' => ?_⟩
    show (s.calls ++ _)[i]? = _
    rw [List.getElem?_append_left (List.getElem?_eq_some_iff.mp hc').1, hc']
  | reply i reply =>
    obtain ⟨c, r, -, -, -, rfl⟩ := System.step_reply hstep
    exact ⟨List.subset_append_left _ _, fun _ _ hc' => hc'⟩
  | apply r =>
    obtain ⟨-, shard, error, -, rfl⟩ := System.step_apply hstep
    exact ⟨List.Subset.refl _, fun _ _ hc' => hc'⟩
  | client sid command =>
    obtain ⟨shard, error, -, -, rfl⟩ := System.step_client hstep
    exact ⟨List.Subset.refl _, fun _ _ hc' => hc'⟩
  | restartCoordinator c | restartShard sid =>
    obtain rfl := Option.some.inj hstep
    exact ⟨List.Subset.refl _, fun _ _ hc' => hc'⟩

lemma sent_reach {ok : System → Event → Prop} (h : Reach Step ok s s') :
    s.sent ⊆ s'.sent ∧ ∀ (i : ℕ) (c : Call), s.calls[i]? = some c →
      s'.calls[i]? = some c := by
  induction h with
  | refl => exact ⟨List.Subset.refl _, fun _ _ hc => hc⟩
  | tail _ _ hstep ih =>
    obtain ⟨hsent, hcalls⟩ := sent_step hstep
    exact ⟨List.Subset.trans ih.1 hsent, fun i c hc => hcalls i c (ih.2 i c hc)⟩

lemma answered {ok : System → Event → Prop} {tr : List (System × Event)}
    (h : Trace Step ok .init tr s) {r : Request} (hr : r ∈ s.done) :
    ∃ y ∈ tr, y.2 = .apply r ∧
      ∃ shard, applyCallback (y.1.shards r.2.1) r.2.2 = .ok (shard, []) := by
  induction h with
  | refl => cases hr
  | @tail tr s s' e _ _ hstep ih =>
    have hearlier : r ∈ s.done → ∃ y ∈ (s, e) :: tr, y.2 = .apply r ∧
        ∃ shard, applyCallback (y.1.shards r.2.1) r.2.2 = .ok (shard, []) := by
      intro hr
      obtain ⟨y, hy, happlied⟩ := ih hr
      exact ⟨y, List.mem_cons_of_mem _ hy, happlied⟩
    cases e with
    | begin c buffer =>
      obtain ⟨-, -, rfl⟩ := System.step_begin hstep
      exact hearlier hr
    | reply i reply =>
      obtain ⟨c, r', -, -, -, rfl⟩ := System.step_reply hstep
      exact hearlier hr
    | apply r' =>
      obtain ⟨-, shard, error, happly, rfl⟩ := System.step_apply hstep
      have hr : r ∈ if error = [] then s.done ++ [r'] else s.done := hr
      split_ifs at hr with herror
      · rcases List.mem_append.mp hr with hr | hr
        · exact hearlier hr
        · obtain rfl := List.mem_singleton.mp hr
          exact ⟨_, List.mem_cons_self, rfl, shard, herror ▸ happly⟩
      · exact hearlier hr
    | client sid command =>
      obtain ⟨shard, error, -, -, rfl⟩ := System.step_client hstep
      exact hearlier hr
    | restartCoordinator c | restartShard sid =>
      obtain rfl := Option.some.inj hstep
      exact hearlier hr

lemma receives_sent (hinv : Inv s) {e : Event} (hstep : Step s e s') {type : TxnControlType}
    {sid : ShardId} {t : ℕ} (h : Receives type sid t e)
    (htype : type = kCommit ∨ type = kAbort) :
    ∃ i c, s.calls[i]? = some c ∧ c.txnId = t ∧
      (i, sid, encodeControl type t) ∈ s.sent := by
  cases e with
  | apply r =>
    obtain ⟨i, sid', command⟩ := r
    obtain ⟨rfl, control, hdecode, rfl, rfl⟩ := h
    obtain ⟨hsent, -⟩ := System.step_apply hstep
    obtain ⟨c, hc, hsends⟩ := hinv.sent _ hsent
    have hlt := hinv.txnId_lt (List.mem_of_getElem? hc)
    have hresolution : ∀ {type' : ℕ}, type' = kCommit ∨ type' = kAbort →
        tryDecodeTxnControl (encodeControl type' c.txnId) = .ok (some control) →
        control = ⟨type', c.txnId, [], []⟩ := fun htype' hdecode' =>
      (Option.some.inj (Except.ok.inj ((tryDecode_resolution htype' hlt).symm.trans hdecode'))).symm
    dsimp only at hsends
    cases hsends with
    | prepare hp =>
      have hid := (Call.find_prepares hp).1
      have hprepare := (tryDecode_prepare_txnId (hid ▸ hlt) hdecode).1
      rcases htype with h | h <;> exact absurd (hprepare.symm.trans h) (by decide)
    | commit =>
      obtain rfl := hresolution (.inl rfl) hdecode
      exact ⟨i, c, hc, rfl, hsent⟩
    | abort =>
      obtain rfl := hresolution (.inr rfl) hdecode
      exact ⟨i, c, hc, rfl, hsent⟩
  | begin | reply | client | restartCoordinator | restartShard => exact h.elim

lemma votes_of_answer (hinv : Inv s) {i : ℕ} {c : Call} (hc : s.calls[i]? = some c)
    {sid : ShardId} {p : TxnPrepare} (hp : c.prepares.find sid = some p) {y : System × Event}
    (hy : y.2 = .apply (i, sid, encodeTxnPrepare p)) {shard : Shard}
    (happly : applyCallback (y.1.shards sid) (encodeTxnPrepare p) = .ok (shard, [])) :
    Votes sid c.txnId y := by
  have hid := (Call.find_prepares hp).1
  have hlt := hinv.txnId_lt (List.mem_of_getElem? hc)
  refine ⟨?_, i, _, shard, hy, happly⟩
  rw [hy]
  have hnone : tryDecodeTxnControl (encodeTxnPrepare p) ≠ .ok none := by
    unfold encodeTxnPrepare
    rw [List.append_assoc, tryDecode_control (by decide) (hid ▸ hlt)]
    rcases Codec.run _ _ with e | control <;> nofun
  rcases applyCallback_cases happly with ⟨hdecode, -⟩ | ⟨control, hdecode, -⟩
  · exact absurd hdecode hnone
  · obtain ⟨htype, htxn⟩ := tryDecode_prepare_txnId (hid ▸ hlt) hdecode
    exact ⟨rfl, control, hdecode, htype, htxn.trans hid⟩

end

/-- **Agreement**: a shard runs the statements of a transaction only behind a yes vote of every
shard that the transaction names, and in no run does another one discard them, before or after. -/
theorem agreement {s : System} {tr later earlier : List (System × Event)} {x : System × Event}
    {sid : ShardId} {t : ℕ} (h : Trace Step DistinctIds .init tr s)
    (htr : tr = later ++ x :: earlier) (hx : Executes sid t x) :
    (∃ c ∈ x.1.calls, c.txnId = t ∧ ∀ sid' ∈ c.shardIds, ∃ y ∈ earlier,
      Votes sid' t y) ∧ ∀ sid', ∀ y ∈ tr, ¬ Discards sid' t y := by
  subst htr
  obtain ⟨hbefore, -, s₁, hstep, hafter⟩ := h.split
  have hinv := Inv.reach hbefore.reach
  obtain ⟨i, c, hc, rfl, hcommit⟩ := receives_sent hinv hstep hx.1 (.inl rfl)
  obtain ⟨hsent₁, hcalls₁⟩ := sent_step hstep
  obtain ⟨hsent₂, hcalls₂⟩ := sent_reach hafter
  have hcommit' := hsent₂ (hsent₁ hcommit)
  have hc' := hcalls₂ i c (hcalls₁ i c hc)
  refine ⟨⟨c, List.mem_of_getElem? hc, rfl, fun sid' hsid' => ?_⟩,
    fun sid' y hy hdiscards => ?_⟩
  · rcases ((Decided.reach hbefore.reach).phase hc).decided with hnot | ⟨hvoted, -⟩
    · exact absurd hcommit (hnot sid)
    · obtain ⟨p, hp, hdone⟩ := hvoted sid' hsid'
      obtain ⟨y, hy, hevent, shard, happly⟩ := answered hbefore hdone
      exact ⟨y, hy, votes_of_answer hinv hc hp hevent happly⟩
  · obtain ⟨later', earlier', heq⟩ := List.append_of_mem hy
    rw [heq] at h
    obtain ⟨hbefore', -, s₂, hstep', hafter'⟩ := h.split
    obtain ⟨j, c', hcall, hid, habort⟩ :=
      receives_sent (Inv.reach hbefore'.reach) hstep' hdiscards.1 (.inr rfl)
    have hsent := sent_step hstep'
    have hreach := sent_reach hafter'
    have hcall' := hreach.2 j c' (hsent.2 j c' hcall)
    have habort' := hreach.1 (hsent.1 habort)
    have hdecided := Decided.reach h.reach
    obtain rfl := hdecided.unique hcall' hc' hid
    rcases (hdecided.phase hc').decided with hnot | ⟨-, hnot⟩
    · exact hnot sid hcommit'
    · exact hnot sid' habort'

/-- The control command that an event brings to a shard. -/
def received : Event → Option (ShardId × TxnControlType × ℕ)
  | .apply (_, sid, command) =>
    match tryDecodeTxnControl command with
    | .ok (some control) => some (sid, control.type, control.txnId)
    | _ => none
  | _ => none

lemma receives_iff {type : TxnControlType} {sid : ShardId} {t : ℕ} {e : Event} :
    Receives type sid t e ↔ received e = some (sid, type, t) := by
  cases e with
  | apply r =>
    obtain ⟨i, sid', command⟩ := r
    simp only [Receives, received]
    rcases tryDecodeTxnControl command with err | _ | control
    · simp
    · simp
    · simp
  | begin | reply | client | restartCoordinator | restartShard => simp [Receives, received]

instance decidableReceives (type : TxnControlType) (sid : ShardId) (t : ℕ) (e : Event) :
    Decidable (Receives type sid t e) := decidable_of_iff _ receives_iff.symm

/-- The batch of `t` that a shard runs or drops at this command. -/
def batchAt (type : TxnControlType) (sid : ShardId) (t : ℕ) (x : System × Event) :
    Option Pending :=
  if Receives type sid t x.2 then (x.1.shards sid).participant.pending.find t else none

lemma executes_of_batchAt {sid : ShardId} {t : ℕ} {x : System × Event} {q : Pending}
    (h : batchAt kCommit sid t x = some q) (hq : q.commands ≠ []) : Executes sid t x := by
  unfold batchAt at h
  split_ifs at h with hreceives
  exact ⟨hreceives, q, h, hq⟩

lemma discards_of_batchAt {sid : ShardId} {t : ℕ} {x : System × Event} {q : Pending}
    (h : batchAt kAbort sid t x = some q) : Discards sid t x := by
  unfold batchAt at h
  split_ifs at h with hreceives
  exact ⟨hreceives, Option.isSome_of_mem h⟩

instance decidableDistinctIds (s : System) : (e : Event) → Decidable (DistinctIds s e)
  | .begin c _ => inferInstanceAs (Decidable (∀ call ∈ s.calls, call.txnId ≠ s.nextTxnId c))
  | .reply _ _ | .apply _ | .client _ _ | .restartCoordinator _ | .restartShard _ =>
    inferInstanceAs (Decidable True)

def spreadPrepareOne : Bytes := encodeTxnPrepare ⟨firstTxn, [[97], [99]],
  [text "INSERT INTO d.t (k) VALUES ('a')", text "DELETE FROM d.t WHERE k = 'c'"]⟩

def spreadPrepareTwo : Bytes :=
  encodeTxnPrepare ⟨firstTxn, [[98]], [text "INSERT INTO d.t (k) VALUES ('b')"]⟩

/-- A statement for shard one, and one for a key of shard two that the other call has locked. -/
def clashing : List BufferedTxnStatement := [⟨1, [65], [65]⟩, ⟨2, [98], [66]⟩]

/-- Both shards have the table. -/
def tables : List Event :=
  [.client 1 (text "CREATE DATABASE d"), .client 1 (text "CREATE TABLE d.t (k TEXT PRIMARY KEY)"),
    .client 2 (text "CREATE DATABASE d"), .client 2 (text "CREATE TABLE d.t (k TEXT PRIMARY KEY)")]

/-- Two calls at the same time: shard two refuses the second one, which is dropped on shard one
while the first one is committed on both shards. -/
def twoCalls : List Event := tables ++
  [.begin coordinatorOne spread, .apply (0, 1, spreadPrepareOne), .reply 0 (.response true []),
    .begin coordinatorTwo clashing,
    .apply (1, 1, encodeTxnPrepare ⟨secondTxn, [[65]], [[65]]⟩), .reply 1 (.response true []),
    .apply (0, 2, spreadPrepareTwo), .reply 0 (.response true []),
    .apply (1, 2, encodeTxnPrepare ⟨secondTxn, [[98]], [[66]]⟩),
    .reply 1 (.response false (text "key 'b' is locked by another in-flight transaction")),
    .apply (0, 1, encodeTxnCommit firstTxn), .apply (1, 1, encodeTxnAbort secondTxn),
    .reply 0 (.response true []), .apply (0, 2, encodeTxnCommit firstTxn)]

/-- Both shards have voted for the first transaction when shard two runs its part, and no shard
drops it; the second one is dropped. -/
theorem agreement_twoCalls : ∃ tr x s,
    traceIf? System.step DistinctIds [] .init twoCalls = some (x :: tr, s) ∧
    (∃ y ∈ tr, Executes 1 firstTxn y) ∧ (∃ y ∈ tr, Discards 1 secondTxn y) ∧
    Executes 2 firstTxn x ∧
    (∃ c ∈ x.1.calls, c.txnId = firstTxn ∧ ∀ sid' ∈ c.shardIds, ∃ y ∈ tr,
      Votes sid' firstTxn y) ∧ ∀ sid', ∀ y ∈ x :: tr, ¬ Discards sid' firstTxn y := by
  obtain ⟨⟨tr, s⟩, hrun, hlast, hone, htwo⟩ := exists_of_any
    (x := traceIf? System.step DistinctIds [] .init twoCalls) (P := fun p =>
      (p.1.head?.bind (batchAt kCommit 2 firstTxn)).map Pending.commands =
        some [text "INSERT INTO d.t (k) VALUES ('b')"] ∧
      (∃ y ∈ p.1.tail,
        ((batchAt kCommit 1 firstTxn y).map fun q => q.commands.length) = some 2) ∧
      ∃ y ∈ p.1.tail, (batchAt kAbort 1 secondTxn y).isSome) (by decide +kernel)
  dsimp only at hlast hone htwo
  obtain ⟨q, hbatch, hcommands⟩ := Option.map_eq_some_iff.mp hlast
  obtain ⟨x, hx, hq⟩ := Option.bind_eq_some_iff.mp hbatch
  obtain ⟨earlier, rfl⟩ := List.head?_eq_some_iff.mp hx
  obtain ⟨y, hy, hbatch⟩ := hone
  obtain ⟨p, hp, hlength⟩ := Option.map_eq_some_iff.mp hbatch
  obtain ⟨z, hz, hdrop⟩ := htwo
  obtain ⟨r, hr⟩ := Option.isSome_iff_exists.mp hdrop
  have hexecutes : Executes 2 firstTxn x :=
    executes_of_batchAt hq (by rw [hcommands]; exact List.cons_ne_nil _ _)
  have hnonempty : p.commands ≠ [] := by
    rintro hnil
    rw [hnil] at hlength
    cases hlength
  exact ⟨earlier, x, s, hrun, ⟨y, hy, executes_of_batchAt hp hnonempty⟩,
    ⟨z, hz, discards_of_batchAt hr⟩, hexecutes,
    @agreement s (x :: earlier) [] earlier x 2 firstTxn (trace_traceIf? .refl hrun) rfl hexecutes⟩

end DistDB.TxnSystem
