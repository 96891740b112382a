import DistDB.TxnSystem

/-!
What holds in every state of two-phase commit, and that a COMMIT runs what its coordinator
has buffered.

A participant that knows the transaction of a PREPARE votes yes without looking at the rest
of it, which is right as long as a transaction id stands for one transaction. The counter
behind the ids is gone with the process of its coordinator: a later process uses the same ids
again (`reused_id_commits_another`). Without that, what is pending for a transaction is what
its call has buffered (`commits_what_was_buffered`).
-/

namespace DistDB.TxnSystem

open TxnModel

lemma find_byShard (txnId : ℕ) (buffer : List BufferedTxnStatement) (sid : ShardId) :
    (byShard txnId buffer).find sid =
      if buffer.filter (·.shardId = sid) = [] then none
      else some ⟨txnId, (buffer.filter (·.shardId = sid)).map (·.key),
        (buffer.filter (·.shardId = sid)).map (·.sql)⟩ := by
  induction buffer using List.reverseRecOn with
  | nil => rfl
  | append_singleton buffer stmt ih =>
    have hstep : byShard txnId (buffer ++ [stmt]) = (byShard txnId buffer).insert stmt.shardId
        ⟨txnId, (((byShard txnId buffer).find stmt.shardId).getD ⟨0, [], []⟩).keys ++
          [stmt.key], (((byShard txnId buffer).find stmt.shardId).getD ⟨0, [], []⟩).commands ++
            [stmt.sql]⟩ := by
      rw [byShard, List.foldl_append]
      rfl
    rw [hstep, OrdMap.find_insert]
    by_cases hsid : sid = stmt.shardId
    · subst hsid
      rw [if_pos rfl, ih, List.filter_append, List.filter_singleton]
      by_cases hnil : buffer.filter (·.shardId = stmt.shardId) = []
      · simp [hnil]
      · simp [hnil]
    · rw [if_neg hsid, ih, List.filter_append, List.filter_singleton]
      simp [Ne.symm hsid]

lemma Call.find_prepares {c : Call} {sid : ShardId} {p : TxnPrepare}
    (h : c.prepares.find sid = some p) :
    p.txnId = c.txnId ∧ p.keys = (c.buffer.filter (·.shardId = sid)).map (·.key) ∧
      p.commands = (c.buffer.filter (·.shardId = sid)).map (·.sql) := by
  unfold Call.prepares at h
  rw [find_byShard] at h
  split_ifs at h
  cases h
  exact ⟨rfl, rfl, rfl⟩

/-- What a call may send to a shard. -/
inductive Call.Sends (c : Call) (sid : ShardId) : Bytes → Prop
  | prepare {p : TxnPrepare} (h : c.prepares.find sid = some p) : c.Sends sid (encodeTxnPrepare p)
  | commit : c.Sends sid (encodeTxnCommit c.txnId)
  | abort : c.Sends sid (encodeTxnAbort c.txnId)

lemma Call.sends_of_request {c : Call} {phase : Phase} {r : ShardId × Bytes}
    (h : c.request phase = some r) : c.Sends r.1 r.2 := by
  unfold Call.request at h
  split at h
  · obtain ⟨p, hp, rfl⟩ := Option.map_eq_some_iff.mp h
    exact .prepare hp
  · cases h
    exact .abort
  · cases h
    exact .commit
  · cases h

namespace System

variable {s s' : System}

lemma step_begin {c : Coordinator} {buffer : List BufferedTxnStatement}
    (h : s.step (.begin c buffer) = some s') :
    c.nodeId < 2 ^ 32 ∧ buffer ≠ [] ∧ s' = s.newCall c buffer := by
  simp only [step] at h
  split_ifs at h with hguard
  exact ⟨hguard.1, hguard.2, (Option.some.inj h).symm⟩

lemma step_reply {i : ℕ} {reply : Reply} (h : s.step (.reply i reply) = some s') :
    ∃ c r, s.calls[i]? = some c ∧ c.request (s.phases i) = some r ∧
      ((reply.failure r.1).isSome ∨ (i, r.1, r.2) ∈ s.done) ∧
      s' = s.proceed i c (c.receive reply (s.phases i)) := by
  simp only [step] at h
  cases hc : s.calls[i]? with
  | none => simp [hc] at h
  | some c =>
    cases hr : c.request (s.phases i) with
    | none => simp [hc, hr] at h
    | some r =>
      simp only [hc, hr] at h
      split_ifs at h with hguard
      exact ⟨c, r, rfl, hr, hguard, (Option.some.inj h).symm⟩

lemma step_apply {r : Request} (h : s.step (.apply r) = some s') :
    r ∈ s.sent ∧ ∃ shard error, applyCallback (s.shards r.2.1) r.2.2 = .ok (shard, error) ∧
      s' = { s.setShard r.2.1 shard with done :=
        if error = [] then s.done ++ [r] else s.done } := by
  obtain ⟨i, sid, command⟩ := r
  simp only [step] at h
  dsimp only at h ⊢
  split_ifs at h with hsent
  cases happly : applyCallback (s.shards sid) command with
  | error e => simp [happly] at h
  | ok result =>
    obtain ⟨shard, error⟩ := result
    simp only [happly] at h
    exact ⟨hsent, shard, error, rfl, (Option.some.inj h).symm⟩

lemma step_client {sid : ShardId} {command : Bytes} (h : s.step (.client sid command) = some s') :
    ∃ shard error, tryDecodeTxnControl command = .ok none ∧
      applyCallback (s.shards sid) command = .ok (shard, error) ∧ s' = s.setShard sid shard := by
  simp only [step] at h
  split at h
  · rename_i shard error hdecode happly
    exact ⟨shard, error, hdecode, happly, (Option.some.inj h).symm⟩
  · cases h

lemma enroll_counters (c : Call) (d : Coordinator) : (s.enroll c).counters d =
    if d = c.coordinator then (s.counters c.coordinator + 1) % 2 ^ 32 else s.counters d :=
  Function.update_apply ..

lemma calls_enroll {c c' : Call} {i : ℕ} (h : (s.enroll c).calls[i]? = some c') :
    s.calls[i]? = some c' ∨ (i = s.calls.length ∧ c' = c) := by
  have hcalls : (s.enroll c).calls = s.calls ++ [c] := rfl
  rw [hcalls] at h
  rcases Nat.lt_or_ge i s.calls.length with hlt | hge
  · rw [List.getElem?_append_left hlt] at h
    exact .inl h
  · have hlt := (List.getElem?_eq_some_iff.mp h).1
    rw [List.length_append, List.length_singleton] at hlt
    obtain rfl : i = s.calls.length := by omega
    rw [List.getElem?_concat_length, Option.some.injEq] at h
    exact .inr ⟨rfl, h.symm⟩

lemma mem_calls_enroll {c c' : Call} (h : c' ∈ (s.enroll c).calls) :
    c' ∈ s.calls ∨ c' = c := by
  rcases List.mem_append.mp h with h | h
  · exact .inl h
  · exact .inr (List.mem_singleton.mp h)

lemma phases_enroll {c c' : Call} {i : ℕ} (h : s.calls[i]? = some c') :
    (s.enroll c).phases i = s.phases i :=
  Function.update_of_ne (List.getElem?_eq_some_iff.mp h).1.ne _ _

lemma restart_counters (c d : Coordinator) :
    (s.restart c).counters d = if d = c then 0 else s.counters d := Function.update_apply ..

lemma restart_earlier (c d : Coordinator) :
    (s.restart c).earlier d = if d = c then s.earlier c + s.counters c else s.earlier d :=
  Function.update_apply ..

lemma shards_setShard (sid sid' : ShardId) (shard : Shard) :
    (s.setShard sid shard).shards sid' = if sid' = sid then shard else s.shards sid' := by
  unfold setShard
  by_cases h : sid' = sid
  · subst h
    rw [if_pos rfl]
    exact Function.update_self _ _ _
  · rw [if_neg h]
    exact Function.update_of_ne h _ _

end System

/-! ### In every state -/

lemma packed_lt {a k : ℕ} (ha : a < 2 ^ 32) (hk : k < 2 ^ 32) : a * 2 ^ 32 + k < 2 ^ 64 := by
  omega

lemma packed_left {a a' k k' : ℕ} (hk : k < 2 ^ 32) (hk' : k' < 2 ^ 32)
    (h : a * 2 ^ 32 + k = a' * 2 ^ 32 + k') : a = a' := by
  omega

structure Inv (s : System) : Prop where
  counter : ∀ c, s.counters c < 2 ^ 32
  /-- The id of a transaction has the number of the node that coordinates it. -/
  txnId : ∀ c ∈ s.calls, c.coordinator.nodeId < 2 ^ 32 ∧
    ∃ k, k < 2 ^ 32 ∧ c.txnId = c.coordinator.nodeId * 2 ^ 32 + k
  sent : ∀ r ∈ s.sent, ∃ c, s.calls[r.1]? = some c ∧ c.Sends r.2.1 r.2.2
  done : ∀ r ∈ s.done, r ∈ s.sent
  locked : ∀ sid, (s.shards sid).participant.WellLocked

namespace Inv

variable {s s' : System}

lemma txnId_lt (h : Inv s) {c : Call} (hc : c ∈ s.calls) : c.txnId < 2 ^ 64 := by
  obtain ⟨hnode, k, hk, heq⟩ := h.txnId c hc
  rw [heq]
  exact packed_lt hnode hk

lemma init : Inv .init where
  counter := fun _ => by norm_num [System.init]
  txnId := fun _ h => absurd h List.not_mem_nil
  sent := fun _ h => absurd h List.not_mem_nil
  done := fun _ h => absurd h List.not_mem_nil
  locked := fun _ => TxnParticipant.wellLocked_empty

lemma proceed (h : Inv s) {i : ℕ} {c : Call} (hc : s.calls[i]? = some c) (phase : Phase) :
    Inv (s.proceed i c phase) :=
  { h with
    sent := fun r hr => by
      rcases List.mem_append.mp hr with hr | hr
      · exact h.sent r hr
      · obtain ⟨r', hr', rfl⟩ := List.mem_map.mp hr
        exact ⟨c, hc, Call.sends_of_request (Option.mem_toList.mp hr')⟩
    done := fun r hr => List.mem_append_left _ (h.done r hr) }

lemma newCall (h : Inv s) {c : Coordinator} (hc : c.nodeId < 2 ^ 32)
    (buffer : List BufferedTxnStatement) :
    Inv (s.newCall c buffer) := by
  have hmod : (s.counters c + 1) % 2 ^ 32 < 2 ^ 32 := Nat.mod_lt _ (by norm_num)
  have henroll : Inv (s.enroll ⟨c, s.nextTxnId c, buffer⟩) :=
    { h with
      counter := fun d => by
        rw [System.enroll_counters]
        split_ifs
        · exact hmod
        · exact h.counter d
      txnId := fun call hcall => by
        rcases System.mem_calls_enroll hcall with hcall | rfl
        · exact h.txnId call hcall
        · exact ⟨hc, _, hmod, rfl⟩
      sent := fun r hr => by
        obtain ⟨call, hcall, hsends⟩ := h.sent r hr
        refine ⟨call, ?_, hsends⟩
        show (s.calls ++ _)[r.1]? = _
        rw [List.getElem?_append_left (List.getElem?_eq_some_iff.mp hcall).1, hcall] }
  exact henroll.proceed (List.getElem?_concat_length ..) _

lemma setShard (h : Inv s) {sid : ShardId} {shard : Shard} (hshard : shard.participant.WellLocked) :
    Inv (s.setShard sid shard) :=
  { h with
    locked := fun sid' => by
      rw [System.shards_setShard]
      split_ifs
      · exact hshard
      · exact h.locked sid' }

theorem step (h : Inv s) {e : Event} (hstep : Step s e s') : Inv s' := by
  cases e with
  | begin c buffer =>
    obtain ⟨hc, -, rfl⟩ := System.step_begin hstep
    exact h.newCall hc buffer
  | reply i reply =>
    obtain ⟨c, r, hc, -, -, rfl⟩ := System.step_reply hstep
    exact h.proceed hc _
  | apply r =>
    obtain ⟨hsent, shard, error, happly, rfl⟩ := System.step_apply hstep
    have hset : Inv (s.setShard r.2.1 shard) :=
      h.setShard (wellLocked_applyCallback (h.locked _) happly)
    exact { hset with
      done := fun r' hr' => by
        split_ifs at hr' with herror
        · rcases List.mem_append.mp hr' with hr' | hr'
          · exact h.done r' hr'
          · obtain rfl := List.mem_singleton.mp hr'
            exact hsent
        · exact h.done r' hr' }
  | client sid command =>
    obtain ⟨shard, error, -, happly, rfl⟩ := System.step_client hstep
    exact h.setShard (wellLocked_applyCallback (h.locked _) happly)
  | restartCoordinator c =>
    obtain rfl := Option.some.inj hstep
    exact { h with
      counter := fun d => by
        rw [System.restart_counters]
        split_ifs
        · norm_num
        · exact h.counter d }
  | restartShard sid =>
    obtain rfl := Option.some.inj hstep
    exact h.setShard TxnParticipant.wellLocked_empty

theorem reach {ok : System → Event → Prop} (h : Reach Step ok .init s) : Inv s :=
  h.invariant init fun _ _ _ hs _ hstep => hs.step hstep

end Inv

/-! ### A COMMIT runs what was buffered -/

/-- What a COMMIT depends on. -/
structure Exact (s : System) : Prop where
  /-- No two transactions have the same id. -/
  unique : ∀ {i j : ℕ} {c c' : Call}, s.calls[i]? = some c → s.calls[j]? = some c' →
    c.txnId = c'.txnId → i = j
  /-- A yes vote for a PREPARE of any call leaves exactly its keys and commands pending. -/
  voted : ∀ {i : ℕ} {c : Call} {sid p shard}, s.calls[i]? = some c →
    c.prepares.find sid = some p → applyCallback (s.shards sid)
      (encodeTxnPrepare p) = .ok (shard, []) →
    shard.participant.pending.find p.txnId = some ⟨p.keys, p.commands⟩
  /-- What a shard would run at the COMMIT of a call are the statements that the call has
  buffered for it. -/
  commits : ∀ {i : ℕ} {c : Call} {sid q}, s.calls[i]? = some c →
    (s.shards sid).participant.pending.find c.txnId = some q →
    q.commands = (c.buffer.filter (·.shardId = sid)).map (·.sql)

/-- The keys and statements are short enough for their length fields. -/
def Fits (buffer : List BufferedTxnStatement) : Prop :=
  buffer.length < 2 ^ 32 ∧ ∀ stmt ∈ buffer, stmt.key.length < 2 ^ 32 ∧
    stmt.sql.length < 2 ^ 32

/-- A transaction begins in the first process of its node that begins one, whose counter does
not wrap, and no node of another shard with the same number has begun one. -/
def FirstProcess (s : System) : Event → Prop
  | .begin c buffer => s.earlier c = 0 ∧ s.counters c + 1 < 2 ^ 32 ∧
    (∀ call ∈ s.calls, call.coordinator.nodeId = c.nodeId → call.coordinator = c) ∧
    Fits buffer
  | _ => True

lemma Fits.prepare {c : Call} (h : Fits c.buffer) {sid : ShardId} {p : TxnPrepare}
    (hp : c.prepares.find sid = some p) : p.Fits := by
  obtain ⟨-, hkeys, hcommands⟩ := Call.find_prepares hp
  have hlen : (c.buffer.filter (·.shardId = sid)).length < 2 ^ 32 :=
    (List.length_filter_le _ _).trans_lt h.1
  refine ⟨⟨by rw [hkeys]; simpa using hlen, fun k hk => ?_⟩,
    ⟨by rw [hcommands]; simpa using hlen, fun k hk => ?_⟩⟩
  · rw [hkeys] at hk
    obtain ⟨stmt, hstmt, rfl⟩ := List.mem_map.mp hk
    exact (h.2 stmt (List.mem_filter.mp hstmt).1).1
  · rw [hcommands] at hk
    obtain ⟨stmt, hstmt, rfl⟩ := List.mem_map.mp hk
    exact (h.2 stmt (List.mem_filter.mp hstmt).1).2

/-- The ids of the calls, and what is pending for them. -/
structure Named (s : System) : Prop where
  unique : ∀ {i j : ℕ} {c c' : Call}, s.calls[i]? = some c → s.calls[j]? = some c' →
    c.txnId = c'.txnId → i = j
  /-- The ids that a coordinator has used in its first process. -/
  below : ∀ c ∈ s.calls, s.earlier c.coordinator = 0 →
    c.txnId ≤ c.coordinator.nodeId * 2 ^ 32 + s.counters c.coordinator
  fits : ∀ c ∈ s.calls, Fits c.buffer
  pending : ∀ {sid t q}, (s.shards sid).participant.pending.find t = some q →
    ∃ c p, c ∈ s.calls ∧ c.txnId = t ∧ c.prepares.find sid = some p ∧
      q = ⟨p.keys, p.commands⟩

namespace Named

variable {s s' : System}

lemma eq_of_txnId (h : Named s) {c c' : Call} (hc : c ∈ s.calls) (hc' : c' ∈ s.calls)
    (ht : c.txnId = c'.txnId) : c = c' := by
  obtain ⟨i, hi⟩ := List.mem_iff_getElem?.mp hc
  obtain ⟨j, hj⟩ := List.mem_iff_getElem?.mp hc'
  have hij := h.unique hi hj ht
  subst hij
  exact Option.some.inj (hi.symm.trans hj)

/-- A shard that answers a request of a call has nothing new pending but what that call has
buffered for it. -/
lemma pending_apply (h : Named s) (hinv : Inv s) {c : Call} (hc : c ∈ s.calls) {sid : ShardId}
    {command : Bytes} (hsends : c.Sends sid command) {shard : Shard} {error : Bytes}
    (happly : applyCallback (s.shards sid) command = .ok (shard, error)) {t : ℕ} {q : Pending}
    (hq : shard.participant.pending.find t = some q) :
    ∃ c p, c ∈ s.calls ∧ c.txnId = t ∧ c.prepares.find sid = some p ∧
      q = ⟨p.keys, p.commands⟩ := by
  have htxn := hinv.txnId_lt hc
  have hresolved : ∀ {type}, type = kCommit ∨ type = kAbort →
      command = encodeControl type c.txnId →
        (s.shards sid).participant.pending.find t = some q := by
    rintro type htype rfl
    rw [find_applyCallback_resolution (tryDecode_resolution htype htxn) happly htype] at hq
    split_ifs at hq
    exact hq
  cases hsends with
  | @prepare p hp =>
    obtain ⟨hpid, -, -⟩ := Call.find_prepares hp
    have hdecode := tryDecode_prepare (hpid ▸ htxn) ((h.fits c hc).prepare hp)
    rcases applyCallback_prepare hdecode happly rfl with ⟨rfl, -⟩ | ⟨heq, -⟩
    · exact h.pending hq
    · rw [heq] at hq
      rcases TxnParticipant.prepare_cases (s.shards sid).participant p.txnId p.keys p.commands
        with hsame | ⟨-, -, hnew⟩
      · rw [hsame] at hq
        exact h.pending hq
      · rw [hnew, OrdMap.find_insert] at hq
        split_ifs at hq with ht
        · cases hq
          exact ⟨c, p, hc, (ht.trans hpid).symm, hp, rfl⟩
        · exact h.pending hq
  | commit => exact h.pending (hresolved (.inl rfl) rfl)
  | abort => exact h.pending (hresolved (.inr rfl) rfl)

lemma init : Named .init where
  unique := fun h => by simp [System.init] at h
  below := fun _ h => absurd h List.not_mem_nil
  fits := fun _ h => absurd h List.not_mem_nil
  pending := fun h => by simp [System.init, Shard.start, TxnParticipant.empty] at h

lemma proceed (h : Named s) (i : ℕ) (c : Call) (phase : Phase) : Named (s.proceed i c phase) :=
  { h with }

lemma newCall (h : Named s) (hinv : Inv s) {c : Coordinator} {buffer : List BufferedTxnStatement}
    (hearlier : s.earlier c = 0) (hcounter : s.counters c + 1 < 2 ^ 32)
    (hnode : ∀ call ∈ s.calls, call.coordinator.nodeId = c.nodeId → call.coordinator = c)
    (hfits : Fits buffer) : Named (s.newCall c buffer) := by
  have hid : s.nextTxnId c = c.nodeId * 2 ^ 32 + (s.counters c + 1) := by
    unfold System.nextTxnId
    rw [Nat.mod_eq_of_lt hcounter]
  -- the id is above all that the coordinator has used, and other coordinators have others
  have hfresh : ∀ call ∈ s.calls, call.txnId ≠ s.nextTxnId c := by
    intro call hcall heq
    obtain ⟨-, k, hk, hk'⟩ := hinv.txnId call hcall
    have hpacked : call.coordinator.nodeId * 2 ^ 32 + k =
        c.nodeId * 2 ^ 32 + (s.counters c + 1) :=
      calc call.coordinator.nodeId * 2 ^ 32 + k = call.txnId := hk'.symm
        _ = s.nextTxnId c := heq
        _ = c.nodeId * 2 ^ 32 + (s.counters c + 1) := hid
    have hcoord : call.coordinator = c := hnode call hcall (packed_left hk hcounter hpacked)
    have hbelow := h.below call hcall (hcoord ▸ hearlier)
    rw [hcoord, heq, hid] at hbelow
    exact absurd hbelow (by omega)
  have henroll : Named (s.enroll ⟨c, s.nextTxnId c, buffer⟩) := by
    constructor
    case unique =>
      intro i j call call' hi hj heq
      rcases System.calls_enroll hi with hi' | ⟨rfl, rfl⟩
      · rcases System.calls_enroll hj with hj' | ⟨rfl, rfl⟩
        · exact h.unique hi' hj' heq
        · exact absurd heq (hfresh _ (List.mem_of_getElem? hi'))
      · rcases System.calls_enroll hj with hj' | ⟨rfl, rfl⟩
        · exact absurd heq.symm (hfresh _ (List.mem_of_getElem? hj'))
        · rfl
    case below =>
      intro call hcall hearlier'
      rw [System.enroll_counters, Nat.mod_eq_of_lt hcounter]
      rcases System.mem_calls_enroll hcall with hcall | rfl
      · have hbelow := h.below call hcall hearlier'
        split_ifs with hc
        · rw [hc] at hbelow ⊢
          exact hbelow.trans (Nat.add_le_add_left (Nat.le_succ _) _)
        · exact hbelow
      · rw [if_pos rfl]
        exact hid.le
    case fits =>
      intro call hcall
      rcases System.mem_calls_enroll hcall with hcall | rfl
      · exact h.fits call hcall
      · exact hfits
    case pending =>
      intro sid t q hq
      obtain ⟨call, p, hcall, hrest⟩ := h.pending hq
      exact ⟨call, p, List.mem_append_left _ hcall, hrest⟩
  exact henroll.proceed _ _ _

lemma setShard (h : Named s) {sid : ShardId} {shard : Shard}
    (hshard : ∀ {t q}, shard.participant.pending.find t = some q → ∃ c p, c ∈ s.calls ∧
      c.txnId = t ∧ c.prepares.find sid = some p ∧ q = ⟨p.keys, p.commands⟩) :
    Named (s.setShard sid shard) :=
  { h with
    pending := fun {sid' t q} hq => by
      rw [System.shards_setShard] at hq
      split_ifs at hq with hsid
      · subst hsid
        exact hshard hq
      · exact h.pending hq }

theorem step (h : Named s) (hinv : Inv s) {e : Event} (hok : FirstProcess s e)
    (hstep : Step s e s') : Named s' := by
  cases e with
  | begin c buffer =>
    obtain ⟨-, -, rfl⟩ := System.step_begin hstep
    exact h.newCall hinv hok.1 hok.2.1 hok.2.2.1 hok.2.2.2
  | reply i reply =>
    obtain ⟨c, r, -, -, -, rfl⟩ := System.step_reply hstep
    exact h.proceed _ _ _
  | apply r =>
    obtain ⟨hsent, shard, error, happly, rfl⟩ := System.step_apply hstep
    obtain ⟨c, hc, hsends⟩ := hinv.sent r hsent
    have hset : Named (s.setShard r.2.1 shard) := h.setShard fun hq =>
      h.pending_apply hinv (List.mem_of_getElem? hc) hsends happly hq
    exact { hset with }
  | client sid command =>
    obtain ⟨shard, error, hplain, happly, rfl⟩ := System.step_client hstep
    refine h.setShard fun hq => ?_
    rcases applyCallback_cases happly with ⟨-, heq⟩ | ⟨control, hsome, -⟩
    · exact h.pending (heq ▸ hq)
    · exact absurd (hplain.symm.trans hsome) nofun
  | restartCoordinator c =>
    obtain rfl := Option.some.inj hstep
    exact { h with
      below := fun call hcall hearlier => by
        rw [System.restart_earlier] at hearlier
        rw [System.restart_counters]
        split_ifs at hearlier ⊢ with hc
        · -- its processes have begun nothing so far
          obtain ⟨hearlier, hcounter⟩ := Nat.add_eq_zero_iff.mp hearlier
          have hbelow := h.below call hcall (hc ▸ hearlier)
          rwa [hc, hcounter, ← hc] at hbelow
        · exact h.below call hcall hearlier }
  | restartShard sid =>
    obtain rfl := Option.some.inj hstep
    exact h.setShard fun hq => by simp [TxnParticipant.empty] at hq

lemma exact (h : Named s) (hinv : Inv s) : Exact s where
  unique := h.unique
  voted := fun {i c sid p shard} hc hp happly => by
    have hmem := List.mem_of_getElem? hc
    obtain ⟨hpid, -, -⟩ := Call.find_prepares hp
    have hdecode := tryDecode_prepare (hpid ▸ hinv.txnId_lt hmem) ((h.fits c hmem).prepare hp)
    rcases applyCallback_prepare hdecode happly rfl with ⟨-, hvote⟩ | ⟨hshard, hvote⟩
    · exact absurd rfl hvote
    · obtain ⟨q, hq⟩ := Option.isSome_iff_exists.mp
        (TxnParticipant.prepare_pending (p := (s.shards sid).participant) hvote.symm)
      rw [hshard, hq]
      obtain ⟨c', p', hc', ht, hp', rfl⟩ :=
        h.pending_apply hinv hmem (.prepare hp) happly (hshard ▸ hq)
      obtain rfl := h.eq_of_txnId hc' hmem (ht.trans hpid)
      rw [hp, Option.some.injEq] at hp'
      rw [hp']
  commits := fun {i c sid q} hc hq => by
    obtain ⟨c', p, hc', ht, hp, rfl⟩ := h.pending hq
    obtain rfl := h.eq_of_txnId hc' (List.mem_of_getElem? hc) ht
    exact (Call.find_prepares hp).2.2

end Named

/-- **A COMMIT runs what its coordinator has buffered**, in every state of a run in which no
coordinator begins a transaction in a later process than its first one. -/
theorem commits_what_was_buffered {s : System} (h : Reach Step FirstProcess .init s) : Exact s := by
  have hboth : Inv s ∧ Named s := by
    refine h.invariant (I := fun s => Inv s ∧ Named s) ⟨Inv.init, Named.init⟩ ?_
    exact fun _ _ _ hs hok hstep => ⟨hs.1.step hstep, hs.2.step hs.1 hok hstep⟩
  exact hboth.2.exact hboth.1

/-- One statement for shard one, with this key and text. -/
def single (c : UInt8) : List BufferedTxnStatement := [⟨1, [c], [c]⟩]

/-- The first id of coordinator one. -/
def firstTxn : ℕ := 2 ^ 32 + 1

/-- The PREPARE of the call at this position. -/
def prepareOf (i : ℕ) (c : UInt8) : Event :=
  .apply (i, 1, encodeTxnPrepare ⟨firstTxn, [[c]], [[c]]⟩)

/-- Nodes of two shards. -/
def coordinatorOne : Coordinator := ⟨1, 1⟩

def coordinatorTwo : Coordinator := ⟨2, 2⟩

/-- The first id of coordinator two. -/
def secondTxn : ℕ := 2 ^ 33 + 1

/-- Statements for shards one, two and one again. -/
def spread : List BufferedTxnStatement :=
  [⟨1, [97], text "INSERT INTO d.t (k) VALUES ('a')"⟩,
    ⟨2, [98], text "INSERT INTO d.t (k) VALUES ('b')"⟩,
    ⟨1, [99], text "DELETE FROM d.t WHERE k = 'c'"⟩]

/-- Two transactions are prepared side by side, the one of them on two shards; one coordinator
restarts before it begins the other. -/
def sideBySide : List Event :=
  [.begin coordinatorOne spread,
    .apply (0, 1, encodeTxnPrepare ⟨firstTxn, [[97], [99]],
      [text "INSERT INTO d.t (k) VALUES ('a')", text "DELETE FROM d.t WHERE k = 'c'"]⟩),
    .restartCoordinator coordinatorTwo, .begin coordinatorTwo (single 65),
    .apply (1, 1, encodeTxnPrepare ⟨secondTxn, [[65]], [[65]]⟩),
    .reply 0 (.response true []),
    .apply (0, 2, encodeTxnPrepare
      ⟨firstTxn, [[98]], [text "INSERT INTO d.t (k) VALUES ('b')"]⟩)]

instance decidableFits (buffer : List BufferedTxnStatement) : Decidable (Fits buffer) :=
  inferInstanceAs (Decidable (_ ∧ _))

instance decidableFirstProcess (s : System) : (e : Event) → Decidable (FirstProcess s e)
  | .begin _ _ => inferInstanceAs (Decidable (_ ∧ _ ∧ _ ∧ _))
  | .reply _ _ | .apply _ | .client _ _ | .restartCoordinator _ | .restartShard _ =>
    inferInstanceAs (Decidable True)

/-- Each shard has the statements of both transactions as they were buffered. -/
theorem commits_what_was_buffered_sideBySide :
    ∃ s, runIf? System.step FirstProcess .init sideBySide = some s ∧ Exact s ∧
      ((s.shards 1).participant.pending.find firstTxn).map Pending.commands =
        some [text "INSERT INTO d.t (k) VALUES ('a')", text "DELETE FROM d.t WHERE k = 'c'"] ∧
      ((s.shards 2).participant.pending.find firstTxn).map Pending.commands =
        some [text "INSERT INTO d.t (k) VALUES ('b')"] ∧
      ((s.shards 1).participant.pending.find secondTxn).map Pending.commands = some [[65]] := by
  obtain ⟨s, hs, hpending⟩ := exists_of_any
    (x := runIf? System.step FirstProcess .init sideBySide) (P := fun s =>
      ((s.shards 1).participant.pending.find firstTxn).map Pending.commands =
        some [text "INSERT INTO d.t (k) VALUES ('a')", text "DELETE FROM d.t WHERE k = 'c'"] ∧
      ((s.shards 2).participant.pending.find firstTxn).map Pending.commands =
        some [text "INSERT INTO d.t (k) VALUES ('b')"] ∧
      ((s.shards 1).participant.pending.find secondTxn).map Pending.commands = some [[65]])
    (by decide +kernel)
  exact ⟨s, hs, commits_what_was_buffered (reach_runIf? hs), hpending⟩

/-- **A COMMIT may run another transaction**: coordinator one restarts with a transaction
pending, and its new process uses the same id for another one. -/
theorem reused_id_commits_another : ¬ ∀ s, Reach Step (fun _ _ => True) .init s → Exact s := by
  intro hall
  have hrun : (runOf? System.step .init [.begin coordinatorOne (single 65),
      prepareOf 0 65, .restartCoordinator coordinatorOne, .begin coordinatorOne (single 66),
      prepareOf 1 66]).map (fun s =>
        ((s.calls[1]?).map fun c => (c.txnId, c.buffer),
          (s.shards 1).participant.pending.find firstTxn)) =
      some (some (firstTxn, single 66), some ⟨[[65]], [[65]]⟩) := by decide +kernel
  obtain ⟨s, hs, heq⟩ := Option.map_eq_some_iff.mp hrun
  obtain ⟨hcall, hpending⟩ := Prod.mk.inj heq
  obtain ⟨c, hc, hcall⟩ := Option.map_eq_some_iff.mp hcall
  obtain ⟨hid, hbuffer⟩ := Prod.mk.inj hcall
  have hcommands := (hall s (reach_runOf? hs)).commits hc (hid ▸ hpending)
  rw [hbuffer] at hcommands
  exact absurd hcommands (by decide)

end DistDB.TxnSystem
