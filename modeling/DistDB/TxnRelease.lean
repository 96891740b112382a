import DistDB.TxnRuns

/-!
What an aborted transaction leaves behind.

`RunTransaction` sends an ABORT to the shards whose PREPARE was answered with success, and to
no others. A PREPARE whose reply is lost may have been applied all the same, or may still be
applied later; then the shard keeps its locks for ever (`lost_reply_keeps_locks`). Where
neither happens, nothing stays locked (`aborted_releases`).
-/

namespace DistDB.TxnSystem

open TxnModel

/-- A call that has returned ABORTED, with no rollback failure, holds nothing on any
shard. -/
def Released (s : System) : Prop :=
  ∀ (i : ℕ) (c : Call) prepared reason, s.calls[i]? = some c →
    s.phases i = .aborting prepared reason [] [] →
    ∀ sid, (s.shards sid).participant.Free c.txnId

def VotesYes (shard : Shard) (p : TxnPrepare) : Prop :=
  ∃ shard', applyCallback shard (encodeTxnPrepare p) = .ok (shard', [])

/-- Transaction ids are used once. A PREPARE that the coordinator takes as failed has not been
applied with a yes vote, and gets none later; nor does a copy of a PREPARE that comes after
the ABORT. -/
def Timely (s : System) : Event → Prop
  | .begin c _ => ∀ call ∈ s.calls, call.txnId ≠ s.nextTxnId c
  | .reply i reply => ∀ c prepared sid todo, s.calls[i]? = some c →
    s.phases i = .preparing prepared (sid :: todo) → (reply.failure sid).isSome →
    (s.shards sid).participant.pending.find c.txnId = none
  | .apply (i, sid, command) => ∀ c p prepared reason failures todo, s.calls[i]? = some c →
    c.prepares.find sid = some p → command = encodeTxnPrepare p →
    s.phases i = .aborting prepared reason failures todo → VotesYes (s.shards sid) p →
    sid ∈ prepared ∧ (i, sid, encodeTxnAbort c.txnId) ∉ s.done
  | _ => True

/-- Where a call in this phase may be pending: on no other shard than these. -/
def MayHold (s : System) (i : ℕ) (c : Call) (sid : ShardId) : Phase → Prop
  | .preparing prepared todo => sid ∈ prepared ∨ todo.head? = some sid
  | .aborting prepared _ _ _ => sid ∈ prepared ∧ (i, sid, encodeTxnAbort c.txnId) ∉ s.done
  | _ => True

structure Tracked (s : System) : Prop where
  unique : ∀ {i j : ℕ} {c c' : Call}, s.calls[i]? = some c → s.calls[j]? = some c' →
    c.txnId = c'.txnId → i = j
  known : ∀ {sid t}, ((s.shards sid).participant.pending.find t).isSome →
    ∃ c ∈ s.calls, c.txnId = t
  held : ∀ {i : ℕ} {c : Call} {sid}, s.calls[i]? = some c →
    ((s.shards sid).participant.pending.find c.txnId).isSome → MayHold s i c sid (s.phases i)
  /-- While a call prepares, it has sent nothing else, and not yet to the shards behind. -/
  preparing : ∀ {i : ℕ} {c : Call} {prepared todo}, s.calls[i]? = some c →
    s.phases i = .preparing prepared todo → ∀ {sid command}, (i, sid, command) ∈ s.sent →
    (∃ p, command = encodeTxnPrepare p) ∧ (sid ∈ prepared ∨ todo.head? = some sid)
  /-- An ABORT that is not to be sent any more was applied. -/
  aborting : ∀ {i : ℕ} {c : Call} {prepared reason todo}, s.calls[i]? = some c →
    s.phases i = .aborting prepared reason [] todo → ∀ sid ∈ prepared,
    sid ∈ todo ∨ (i, sid, encodeTxnAbort c.txnId) ∈ s.done

lemma encodeTxnPrepare_ne_abort (p : TxnPrepare) (txnId : ℕ) :
    encodeTxnPrepare p ≠ encodeTxnAbort txnId := by
  intro h
  have := congrArg (·[1]?) h
  simp [encodeTxnPrepare, encodeTxnAbort, encodeControl, Bytes.le, kPrepare, kAbort] at this

lemma Tracked.released {s : System} (h : Tracked s) (hinv : Inv s) : Released s := by
  intro i c prepared reason hc hphase sid
  refine (hinv.locked sid).free (Option.not_isSome_iff_eq_none.mp fun hpending => ?_)
  have hheld := h.held hc hpending
  rw [hphase] at hheld
  rcases h.aborting hc hphase sid hheld.1 with htodo | hdone
  · exact absurd htodo List.not_mem_nil
  · exact hheld.2 hdone

namespace Tracked

variable {s s' : System}

/-! ### Steps of the coordinators -/

lemma init : Tracked .init where
  unique := fun h => by simp [System.init] at h
  known := fun h => by simp [System.init, Shard.start, TxnParticipant.empty] at h
  held := fun h => by simp [System.init] at h
  preparing := fun h => by simp [System.init] at h
  aborting := fun h => by simp [System.init] at h

lemma proceed (h : Tracked s) {i : ℕ} {c : Call} {phase : Phase} (hc : s.calls[i]? = some c)
    (hheld : ∀ {sid}, ((s.shards sid).participant.pending.find c.txnId).isSome →
      MayHold s i c sid phase)
    (hpreparing : ∀ {prepared todo}, phase = .preparing prepared todo → ∀ {sid command},
      (i, sid, command) ∈ s.sent →
      (∃ p, command = encodeTxnPrepare p) ∧ (sid ∈ prepared ∨ todo.head? = some sid))
    (haborting : ∀ {prepared reason todo}, phase = .aborting prepared reason [] todo →
      ∀ sid ∈ prepared, sid ∈ todo ∨ (i, sid, encodeTxnAbort c.txnId) ∈ s.done) :
    Tracked (s.proceed i c phase) := by
  have hphases : ∀ j, (s.proceed i c phase).phases j = if j = i then phase else s.phases j :=
    fun j => Function.update_apply ..
  have hsame : ∀ {j : ℕ} {c'}, s.calls[j]? = some c' → j = i → c' = c := by
    rintro j c' hc' rfl
    exact Option.some.inj (hc'.symm.trans hc)
  refine { h with held := ?_, preparing := ?_, aborting := ?_ }
  · intro j c' sid hc' hpending
    rw [hphases]
    split_ifs with hj
    · obtain rfl := hsame hc' hj
      subst hj
      exact hheld hpending
    · exact h.held hc' hpending
  · intro j c' prepared todo hc' hphase sid command hsent
    rw [hphases] at hphase
    rcases List.mem_append.mp hsent with hsent | hsent
    · split_ifs at hphase with hj
      · rw [hj] at hsent
        exact hpreparing hphase hsent
      · exact h.preparing hc' hphase hsent
    · obtain ⟨r, hr, heq⟩ := List.mem_map.mp hsent
      cases heq
      rw [if_pos rfl] at hphase
      rw [Option.mem_toList, hphase] at hr
      cases todo with
      | nil => cases hr
      | cons sid' todo =>
        obtain ⟨p, -, rfl⟩ := Option.map_eq_some_iff.mp hr
        exact ⟨⟨p, rfl⟩, .inr rfl⟩
  · intro j c' prepared reason todo hc' hphase sid hsid
    rw [hphases] at hphase
    split_ifs at hphase with hj
    · obtain rfl := hsame hc' hj
      subst hj
      exact haborting hphase sid hsid
    · exact h.aborting hc' hphase sid hsid

lemma newCall (h : Tracked s) (hinv : Inv s) {c : Coordinator} {buffer : List BufferedTxnStatement}
    (hfresh : ∀ call ∈ s.calls, call.txnId ≠ s.nextTxnId c) :
    Tracked (s.newCall c buffer) := by
  obtain ⟨call, hcall⟩ : ∃ call : Call, call = ⟨c, s.nextTxnId c, buffer⟩ := ⟨_, rfl⟩
  have hid : call.txnId = s.nextTxnId c := by rw [hcall]
  -- nothing of the new call is pending or sent yet
  have hunknown : ∀ {sid}, ¬ ((s.shards sid).participant.pending.find call.txnId).isSome := by
    intro sid hpending
    obtain ⟨c', hc', ht⟩ := h.known hpending
    exact hfresh c' hc' (ht.trans hid)
  have hunsent : ∀ {sid command}, (s.calls.length, sid, command) ∉ s.sent := by
    intro sid command hsent
    obtain ⟨c', hc', -⟩ := hinv.sent _ hsent
    exact absurd (List.getElem?_eq_some_iff.mp hc').1 (lt_irrefl _)
  have hlost : (s.enroll call).phases s.calls.length = .lost := Function.update_self _ _ _
  have henroll : Tracked (s.enroll call) := by
    constructor
    case unique =>
      intro i j c₁ c₂ hi hj ht
      rcases System.calls_enroll hi with hi' | ⟨rfl, rfl⟩
      · rcases System.calls_enroll hj with hj' | ⟨rfl, rfl⟩
        · exact h.unique hi' hj' ht
        · exact absurd (ht.trans hid) (hfresh _ (List.mem_of_getElem? hi'))
      · rcases System.calls_enroll hj with hj' | ⟨rfl, -⟩
        · exact absurd (ht.symm.trans hid) (hfresh _ (List.mem_of_getElem? hj'))
        · rfl
    case known =>
      intro sid t hpending
      obtain ⟨c', hc', ht⟩ := h.known hpending
      exact ⟨c', List.mem_append_left _ hc', ht⟩
    case held =>
      intro i c' sid hi hpending
      rcases System.calls_enroll hi with hi' | ⟨rfl, rfl⟩
      · rw [System.phases_enroll hi']
        exact h.held hi' hpending
      · exact absurd hpending hunknown
    case preparing =>
      intro i c' prepared todo hi hp sid command hsent
      rcases System.calls_enroll hi with hi' | ⟨rfl, -⟩
      · rw [System.phases_enroll hi'] at hp
        exact h.preparing hi' hp hsent
      · exact absurd hsent hunsent
    case aborting =>
      intro i c' prepared reason todo hi hp sid hsid
      rcases System.calls_enroll hi with hi' | ⟨rfl, -⟩
      · rw [System.phases_enroll hi'] at hp
        exact h.aborting hi' hp sid hsid
      · rw [hlost] at hp
        cases hp
  have hphase : ∀ prepared reason failures todo, call.prepareNext [] call.shardIds ≠
      .aborting prepared reason failures todo := by
    intro _ _ _ _ hp
    unfold Call.prepareNext at hp
    split_ifs at hp
  have hgo := henroll.proceed (i := s.calls.length) (c := call)
    (List.getElem?_concat_length ..)
    (fun hpending => absurd hpending hunknown) (fun _ _ _ hsent => absurd hsent hunsent)
    (fun hp => absurd hp (hphase _ _ _ _))
  rw [hcall] at hgo
  exact hgo

/-- A reply: a failed PREPARE is not pending, and an ABORT that succeeded was applied. -/
lemma reply (h : Tracked s) (hinv : Inv s) {i : ℕ} {c : Call} {reply : Reply}
    {r : ShardId × Bytes} (hc : s.calls[i]? = some c) (hrequest : c.request (s.phases i) = some r)
    (hguard : (reply.failure r.1).isSome ∨ (i, r.1, r.2) ∈ s.done)
    (hok : Timely s (.reply i reply)) : Tracked (s.proceed i c (c.receive reply (s.phases i))) := by
  cases hphase : s.phases i with
  | lost => rw [hphase] at hrequest; cases hrequest
  | preparing prepared todo =>
    have hsent : ∀ {sid command}, (i, sid, command) ∈ s.sent →
        (∃ p, command = encodeTxnPrepare p) ∧ (sid ∈ prepared ∨ todo.head? = some sid) :=
      h.preparing hc hphase
    have hheld : ∀ {sid}, ((s.shards sid).participant.pending.find c.txnId).isSome →
        MayHold s i c sid (s.phases i) := h.held hc
    rw [hphase] at hheld hrequest
    cases todo with
    | nil => cases hrequest
    | cons sid todo =>
      have hmore : ∀ {sid'}, (sid' ∈ prepared ∨ (sid :: todo).head? = some sid') →
          sid' ∈ prepared ++ [sid] := by
        rintro sid' (hmem | hhead)
        · exact List.mem_append_left _ hmem
        · rw [List.head?_cons, Option.some.injEq] at hhead
          exact List.mem_append_right _ (List.mem_singleton.mpr hhead.symm)
      -- a shard whose PREPARE fails is sent no ABORT; that it holds nothing is what Timely asks
      cases hfail : reply.failure sid with
      | some reason =>
        have hreceive : c.receive reply (.preparing prepared (sid :: todo)) =
            .aborting prepared reason [] prepared := by simp only [Call.receive, hfail]
        rw [hreceive]
        refine h.proceed hc (fun {sid'} hpending => ?_)
          (fun hp => by cases hp) fun hp sid' hsid' => ?_
        · rcases hheld hpending with hmem | hhead
          · refine ⟨hmem, fun hdone => ?_⟩
            obtain ⟨⟨p, hp⟩, -⟩ := hsent (hinv.done _ hdone)
            exact encodeTxnPrepare_ne_abort p _ hp.symm
          · obtain rfl : sid = sid' := by simpa using hhead
            rw [hok c prepared sid todo hc hphase (by rw [hfail]; rfl)] at hpending
            cases hpending
        · cases hp
          exact .inl hsid'
      | none =>
        have hreceive : c.receive reply (.preparing prepared (sid :: todo)) =
            c.prepareNext (prepared ++ [sid]) todo := by simp only [Call.receive, hfail]
        rw [hreceive]
        unfold Call.prepareNext
        split_ifs
        · exact h.proceed hc (fun _ => trivial) (fun hp => by cases hp) fun hp => by cases hp
        · refine h.proceed hc (fun hpending => .inl (hmore (hheld hpending))) ?_
            fun hp => by cases hp
          intro prepared' todo' hp sid' command hs
          cases hp
          obtain ⟨hprepare, hwhere⟩ := hsent hs
          exact ⟨hprepare, .inl (hmore hwhere)⟩
  | aborting prepared reason failures todo =>
    have hheld : ∀ {sid}, ((s.shards sid).participant.pending.find c.txnId).isSome →
        MayHold s i c sid (s.phases i) := h.held hc
    rw [hphase] at hheld hrequest
    cases todo with
    | nil => cases hrequest
    | cons sid todo =>
      cases hrequest
      refine h.proceed hc hheld (fun hp => by cases hp)
        fun {prepared' reason' todo'} hp sid' hsid' => ?_
      obtain ⟨rfl, rfl, hnil, rfl⟩ := Phase.aborting.inj hp
      obtain ⟨rfl, hfail⟩ := List.append_eq_nil_iff.mp hnil
      rw [Option.toList_eq_nil_iff] at hfail
      rcases h.aborting hc hphase sid' hsid' with htodo | hdone
      · rcases List.mem_cons.mp htodo with rfl | htodo
        · refine .inr (hguard.resolve_left ?_)
          rw [hfail]
          simp
        · exact .inl htodo
      · exact .inr hdone
  | committing failures todo =>
    rw [hphase] at hrequest
    cases todo with
    | nil => cases hrequest
    | cons sid todo =>
      exact h.proceed hc (fun _ => trivial) (fun hp => by cases hp) fun hp => by cases hp

/-! ### Steps of the shards -/

/-- What a shard may become: nothing is pending but what was or what its call allows. -/
lemma setShard (h : Tracked s) {sid : ShardId} {shard : Shard}
    (hknown : ∀ {t}, (shard.participant.pending.find t).isSome → ∃ c ∈ s.calls, c.txnId = t)
    (hheld : ∀ {i : ℕ} {c : Call}, s.calls[i]? = some c →
      (shard.participant.pending.find c.txnId).isSome → MayHold s i c sid (s.phases i)) :
    Tracked (s.setShard sid shard) :=
  { h with
    known := fun {sid' t} hpending => by
      rw [System.shards_setShard] at hpending
      split_ifs at hpending
      · exact hknown hpending
      · exact h.known hpending
    held := fun {i c sid'} hc hpending => by
      rw [System.shards_setShard] at hpending
      split_ifs at hpending with hsid
      · subst hsid
        exact hheld hc hpending
      · exact h.held hc hpending }

/-- One more request is done: an ABORT whose transaction is not pending on its shard. -/
lemma addDone (h : Tracked s) {r : Request}
    (hr : ∀ {c : Call}, s.calls[r.1]? = some c → r.2.2 = encodeTxnAbort c.txnId →
      (s.shards r.2.1).participant.pending.find c.txnId = none) :
    Tracked { s with done := s.done ++ [r] } :=
  { h with
    held := fun {i c sid} hc hpending => by
      have hold := h.held hc hpending
      show MayHold _ i c sid (s.phases i)
      cases hphase : s.phases i with
      | aborting prepared reason failures todo =>
        rw [hphase] at hold
        refine ⟨hold.1, fun hdone => ?_⟩
        rcases List.mem_append.mp hdone with hdone | hdone
        · exact hold.2 hdone
        · obtain rfl := (List.mem_singleton.mp hdone).symm
          rw [hr hc rfl] at hpending
          cases hpending
      | preparing prepared todo => rw [hphase] at hold; exact hold
      | committing failures todo => trivial
      | lost => trivial
    aborting := fun hc hphase sid hsid =>
      (h.aborting hc hphase sid hsid).imp_right (List.mem_append_left _) }

lemma apply (h : Tracked s) (hinv : Inv s) {i : ℕ} {sid : ShardId} {command : Bytes}
    {shard : Shard} {error : Bytes} (hsent : (i, sid, command) ∈ s.sent)
    (happly : applyCallback (s.shards sid) command = .ok (shard, error))
    (hok : Timely s (.apply (i, sid, command))) :
    Tracked { s.setShard sid shard with
      done := if error = [] then s.done ++ [(i, sid, command)] else s.done } := by
  obtain ⟨c, hc, hsends⟩ := hinv.sent _ hsent
  have hmem := List.mem_of_getElem? hc
  have htxn := hinv.txnId_lt hmem
  -- the request concerns the transaction of its call only
  obtain ⟨hother, hself⟩ : (∀ t, t ≠ c.txnId →
        shard.participant.pending.find t = (s.shards sid).participant.pending.find t) ∧
      ((shard.participant.pending.find c.txnId).isSome → MayHold s i c sid (s.phases i)) := by
    have hresolved : ∀ {type}, type = kCommit ∨ type = kAbort →
        command = encodeControl type c.txnId →
        (∀ t, t ≠ c.txnId →
          shard.participant.pending.find t = (s.shards sid).participant.pending.find t) ∧
        ((shard.participant.pending.find c.txnId).isSome → MayHold s i c sid (s.phases i)) := by
      rintro type htype rfl
      have hfind := find_applyCallback_resolution (tryDecode_resolution htype htxn) happly htype
      refine ⟨fun t ht => ?_, fun hpending => ?_⟩
      · rw [hfind, if_neg ht]
      · rw [hfind, if_pos rfl] at hpending
        cases hpending
    cases hsends with
    | commit => exact hresolved (.inl rfl) rfl
    | abort => exact hresolved (.inr rfl) rfl
    | @prepare p hp =>
      obtain ⟨hpid, -, -⟩ := Call.find_prepares hp
      rcases applyCallback_cases happly with ⟨-, heq⟩ | ⟨control, hdecode, -⟩
      · rw [heq]
        exact ⟨fun _ _ => rfl, h.held hc⟩
      · obtain ⟨htype, hid⟩ := tryDecode_prepare_txnId (hpid ▸ htxn) hdecode
        rw [hpid] at hid
        rcases applyCallback_prepare hdecode happly htype with ⟨rfl, -⟩ | ⟨heq, hvote⟩
        · exact ⟨fun _ _ => rfl, h.held hc⟩
        · refine ⟨fun t ht => ?_, fun hpending => ?_⟩
          · rw [heq, hid, TxnParticipant.find_prepare ht]
          · rcases TxnParticipant.prepare_cases (s.shards sid).participant control.txnId
              control.keys control.commands with hsame | ⟨-, -, hnew⟩
            · rw [heq, hsame] at hpending
              exact h.held hc hpending
            · rw [hnew] at hvote
              cases hphase : s.phases i with
              | preparing prepared todo => exact (h.preparing hc hphase hsent).2
              | aborting prepared reason failures todo =>
                exact hok c p prepared reason failures todo hc hp rfl hphase
                  ⟨shard, (show error = [] from hvote) ▸ happly⟩
              | committing failures todo => trivial
              | lost => trivial
  have hset : Tracked (s.setShard sid shard) := by
    refine h.setShard (fun {t} hpending => ?_) fun {j c'} hc' hpending => ?_
    · by_cases ht : t = c.txnId
      · exact ⟨c, hmem, ht.symm⟩
      · rw [hother t ht] at hpending
        exact h.known hpending
    · by_cases ht : c'.txnId = c.txnId
      · have hij := h.unique hc' hc ht
        subst hij
        obtain rfl := Option.some.inj (hc'.symm.trans hc)
        exact hself hpending
      · rw [hother _ ht] at hpending
        exact h.held hc' hpending
  split_ifs
  · refine hset.addDone fun {c'} hc' habort => ?_
    obtain rfl := Option.some.inj (hc'.symm.trans hc)
    subst habort
    show ((s.setShard sid shard).shards sid).participant.pending.find _ = _
    rw [System.shards_setShard, if_pos rfl,
      find_applyCallback_resolution (tryDecode_resolution (.inr rfl) htxn) happly (.inr rfl),
      if_pos rfl]
  · exact hset

lemma restart (h : Tracked s) (c : Coordinator) : Tracked (s.restart c) := by
  have hphase : ∀ i, (s.restart c).phases i = s.phases i ∨ (s.restart c).phases i = .lost := by
    intro i
    simp only [System.restart]
    split
    · unfold Call.lose
      split_ifs
      · exact .inl rfl
      · exact .inr rfl
      · exact .inl rfl
    · exact .inl rfl
  exact { h with
    held := fun {i c' sid} hc' hpending => by
      rcases hphase i with heq | heq
      · rw [heq]
        exact h.held hc' hpending
      · rw [heq]
        trivial
    preparing := fun {i c' prepared todo} hc' hp => by
      rcases hphase i with heq | heq
      · exact h.preparing hc' (heq ▸ hp)
      · rw [heq] at hp
        cases hp
    aborting := fun {i c' prepared reason todo} hc' hp => by
      rcases hphase i with heq | heq
      · exact h.aborting hc' (heq ▸ hp)
      · rw [heq] at hp
        cases hp }

theorem step (h : Tracked s) (hinv : Inv s) {e : Event} (hok : Timely s e) (hstep : Step s e s') :
    Tracked s' := by
  cases e with
  | begin c buffer =>
    obtain ⟨-, -, rfl⟩ := System.step_begin hstep
    exact h.newCall hinv hok
  | reply i reply =>
    obtain ⟨c, r, hc, hrequest, hguard, rfl⟩ := System.step_reply hstep
    exact h.reply hinv hc hrequest hguard hok
  | apply r =>
    obtain ⟨hsent, shard, error, happly, rfl⟩ := System.step_apply hstep
    exact h.apply hinv hsent happly hok
  | client sid command =>
    obtain ⟨shard, error, hplain, happly, rfl⟩ := System.step_client hstep
    rcases applyCallback_cases happly with ⟨-, heq⟩ | ⟨control, hsome, -⟩
    · refine h.setShard (fun hpending => h.known (heq ▸ hpending)) fun hc hpending => ?_
      exact h.held hc (heq ▸ hpending)
    · exact absurd (hplain.symm.trans hsome) nofun
  | restartCoordinator c =>
    obtain rfl := Option.some.inj hstep
    exact h.restart c
  | restartShard sid =>
    obtain rfl := Option.some.inj hstep
    refine h.setShard (fun hpending => ?_) fun _ hpending => ?_
    · simp [TxnParticipant.empty] at hpending
    · simp [TxnParticipant.empty] at hpending

end Tracked

/-- **An aborted transaction leaves no locks**, in every state of a run in which no PREPARE
that the coordinator takes as failed is applied with a yes vote, and no copy of one is after
the ABORT. -/
theorem aborted_releases {s : System} (h : Reach Step Timely .init s) : Released s := by
  have hboth : Inv s ∧ Tracked s := by
    refine h.invariant (I := fun s => Inv s ∧ Tracked s) ⟨Inv.init, Tracked.init⟩ ?_
    exact fun _ _ _ hs hok hstep => ⟨hs.1.step hstep, hs.2.step hs.1 hok hstep⟩
  exact hboth.2.released hboth.1

def shardPrepare : Request := (0, 1, encodeTxnPrepare ⟨firstTxn, [[65]], [[65]]⟩)

def shardAbort : Request := (0, 1, encodeTxnAbort firstTxn)

/-- Shard one votes yes and shard two does not answer: shard one is told to abort. -/
theorem aborted_releases_two : ∃ s, Released s ∧
    s.phases 0 = .aborting [1] (text "shard 2: timeout") [] [] := by
  have hrun : (do
      let s₁ ← System.init.step
        (.begin coordinatorOne [⟨1, [65], [65]⟩, ⟨2, [66], [66]⟩])
      let s₂ ← s₁.step (.apply shardPrepare)
      let s₃ ← s₂.step (.reply 0 (.response true []))
      let s₄ ← s₃.step (.reply 0 (.threw (text "timeout")))
      let s₅ ← s₄.step (.apply shardAbort)
      let s₆ ← s₅.step (.reply 0 (.response true []))
      return (s₁.phases 0, s₃.phases 0, (s₃.shards 2).participant.pending.entries,
        s₆.phases 0)) =
      some (.preparing [] [1, 2], .preparing [1] [2], [],
        .aborting [1] (text "shard 2: timeout") [] []) := by
    decide +kernel
  obtain ⟨s₁, h₁, hrun⟩ := Option.bind_eq_some_iff.mp hrun
  obtain ⟨s₂, h₂, hrun⟩ := Option.bind_eq_some_iff.mp hrun
  obtain ⟨s₃, h₃, hrun⟩ := Option.bind_eq_some_iff.mp hrun
  obtain ⟨s₄, h₄, hrun⟩ := Option.bind_eq_some_iff.mp hrun
  obtain ⟨s₅, h₅, hrun⟩ := Option.bind_eq_some_iff.mp hrun
  obtain ⟨s₆, h₆, hrun⟩ := Option.bind_eq_some_iff.mp hrun
  simp only [pure, Option.some.injEq, Prod.mk.injEq] at hrun
  obtain ⟨hphase₁, hphase₃, hpending₃, hphase₆⟩ := hrun
  have hok₁ : Timely .init (.begin coordinatorOne [⟨1, [65], [65]⟩, ⟨2, [66], [66]⟩]) :=
    fun _ hcall => absurd hcall List.not_mem_nil
  have hok₂ : Timely s₁ (.apply shardPrepare) := by
    intro c p prepared reason failures todo _ _ _ hphase
    rw [hphase₁] at hphase
    cases hphase
  have hok : ∀ s, Timely s (.reply 0 (.response true [])) := by
    intro s c prepared sid todo _ _ hfail
    cases hfail
  have hok₄ : Timely s₃ (.reply 0 (.threw (text "timeout"))) := by
    intro c prepared sid todo _ hphase _
    rw [hphase₃] at hphase
    cases hphase
    show OrdMap.look _ (s₃.shards 2).participant.pending.entries = none
    rw [hpending₃]
    rfl
  have hok₅ : Timely s₄ (.apply shardAbort) := by
    intro c p prepared reason failures todo _ _ hcommand
    exact absurd hcommand.symm (encodeTxnPrepare_ne_abort p firstTxn)
  refine ⟨s₆, aborted_releases ?_, hphase₆⟩
  exact (((((Reach.refl.tail hok₁ h₁).tail hok₂ h₂).tail (hok s₂) h₃).tail hok₄
    h₄).tail hok₅ h₅).tail (hok s₅) h₆

/-- **A lost reply keeps locks**: the PREPARE is applied with a yes vote, the coordinator sees
a timeout and reports ABORTED, and no ABORT is ever sent. -/
theorem lost_reply_keeps_locks : ¬ ∀ s, Reach Step (fun _ _ => True) .init s → Released s := by
  intro hall
  have hrun : (runOf? System.step .init [.begin coordinatorOne (single 65), .apply shardPrepare,
      .reply 0 (.threw (text "timeout"))]).map (fun s => ((s.calls[0]?).map Call.txnId, s.phases 0,
        (s.shards 1).participant.pending.find firstTxn)) =
      some (some firstTxn, .aborting [] (text "shard 1: timeout") [] [],
        some ⟨[[65]], [[65]]⟩) := by
    decide +kernel
  obtain ⟨s, hs, heq⟩ := Option.map_eq_some_iff.mp hrun
  simp only [Prod.mk.injEq] at heq
  obtain ⟨hcall, hphase, hpending⟩ := heq
  obtain ⟨c, hc, hid⟩ := Option.map_eq_some_iff.mp hcall
  have hfree := (hall s (reach_runOf? hs) 0 c _ _ hc hphase 1).1
  rw [hid, hpending] at hfree
  cases hfree

end DistDB.TxnSystem
