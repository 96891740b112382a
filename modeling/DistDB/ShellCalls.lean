import DistDB.ShardedSessions
import DistDB.ShellSends
import DistDB.TxnSerial

/-!
What a session prints at a `commit`, and what happens to the transaction.

`RunTransaction` sends one request after the other and does not see what else goes on: other
coordinators, copies of its requests that are applied later or again, shards that restart. When all
of that is a run of the system of two-phase commit (`Plays`), the loops of `RunTransaction` are one
of its calls (`Plays.runTransaction`), and so what is printed is true (`told_true`): a transaction
that is printed as aborted never runs on any shard, one that is printed as committed has run on
every shard, and one that is printed as decided is discarded by none.
-/

namespace DistDB.ShellCalls

open NodeModel TxnModel TxnSystem SqlParser SqlExecutor Shell Checks Bytes

variable {σ : Type} {o : Outside σ} {p : Process} {w : σ} {node : Coordinator} {s s' : System}
  {i n : ℕ} {c : Call} {phase : Phase}

/-- The node that a process runs on. -/
def coordinator (p : Process) : Coordinator := ⟨p.shardId, p.nodeId⟩

/-- A step that is none of the coordinator's own, nor one of a node of another shard with the
same number. -/
def Elsewhere (node : Coordinator) (s : System) (e : Event) : Prop :=
  FirstProcess s e ∧
  match e with
  | .begin c _ => c.nodeId ≠ node.nodeId
  | .restartCoordinator c => c ≠ node
  | .reply i _ => ∀ c, s.calls[i]? = some c → c.coordinator ≠ node
  | .apply _ | .client _ _ | .restartShard _ => True

/-- The system as the process meets it: it is asked by `o`, and its state can be seen in the
world. -/
structure Plays (o : Outside σ) (node : Coordinator) (E : σ → System → Prop) : Prop where
  /-- A request of a call of the process. A success means that it was applied without an error. -/
  request : ∀ {w s i c sid command}, E w s → s.calls[i]? = some c → c.coordinator = node →
    (i, sid, command) ∈ s.sent → ∃ s', Reach Step (Elsewhere node) s s' ∧
      E (o.propose sid command w).1 s' ∧
      ((reply (o.propose sid command w).2).failure sid = none → (i, sid, command) ∈ s'.done)
  /-- Any other command. -/
  statement : ∀ {w s sid command}, E w s → command.head? ≠ some 0 →
    ∃ s', Reach Step (Elsewhere node) s s' ∧ E (o.propose sid command w).1 s'
  read : ∀ {w s sid sql}, E w s →
    ∃ s', Reach Step (Elsewhere node) s s' ∧ E (o.read sid sql w).1 s'
  /-- What the process itself knows of its calls cannot be seen. -/
  own : ∀ {w s s'}, E w s → s'.shards = s.shards → s'.done = s.done →
    s.sent ⊆ s'.sent → E w s'

/-- The coordinator has begun `n` transactions, all in one process, and no node of another shard
with the same number has begun one. -/
structure Fresh (node : Coordinator) (n : ℕ) (s : System) : Prop where
  earlier : s.earlier node = 0
  counter : s.counters node = n
  alone : ∀ c ∈ s.calls, c.coordinator.nodeId = node.nodeId → c.coordinator = node

/-- The call is in this phase, and has sent what it waits for. -/
structure Stands (s : System) (i : ℕ) (c : Call) (phase : Phase) : Prop where
  call : s.calls[i]? = some c
  here : s.phases i = phase
  sent : ∀ r, c.request phase = some r → (i, r.1, r.2) ∈ s.sent

/-- A run in which the coordinator begins nothing. -/
structure Goes (node : Coordinator) (s s' : System) : Prop where
  reach : Reach Step FirstProcess s s'
  counters : s'.counters node = s.counters node
  earlier : s'.earlier node = s.earlier node
  calls : ∀ c ∈ s'.calls, c ∈ s.calls ∨ c.coordinator.nodeId ≠ node.nodeId

lemma Goes.refl : Goes node s s := ⟨.refl, rfl, rfl, fun _ => .inl⟩

lemma Goes.trans {s'' : System} (h : Goes node s s') (h' : Goes node s' s'') : Goes node s s'' :=
  ⟨h.reach.trans h'.reach, h'.counters.trans h.counters, h'.earlier.trans h.earlier,
    fun c hc => (h'.calls c hc).elim (h.calls c) .inr⟩

lemma Goes.fresh (h : Goes node s s') (hfresh : Fresh node n s) : Fresh node n s' :=
  ⟨h.earlier.trans hfresh.earlier, h.counters.trans hfresh.counter,
    fun c hc hid => (h.calls c hc).elim (fun hc => hfresh.alone c hc hid) fun hne =>
      absurd hid hne⟩

lemma phases_newCall (hc : s.calls[i]? = some c) (d : Coordinator)
    (buffer : List BufferedTxnStatement) : (s.newCall d buffer).phases i = s.phases i := by
  have hlt := (List.getElem?_eq_some_iff.mp hc).1
  exact (Function.update_of_ne hlt.ne _ _).trans (System.phases_enroll hc)

lemma phases_restart (hc : s.calls[i]? = some c) {d : Coordinator} : (s.restart d).phases i =
    if c.coordinator = d then c.lose (s.phases i) else s.phases i := by
  simp only [System.restart, hc]

lemma elsewhere_step {e : Event} (hok : Elsewhere node s e) (hstep : Step s e s') :
    Goes node s s' ∧ ∀ i c, s.calls[i]? = some c → c.coordinator = node →
      s'.phases i = s.phases i := by
  obtain ⟨hfirst, hother⟩ := hok
  have hreach : Reach Step FirstProcess s s' := .tail .refl hfirst hstep
  cases e with
  | begin d buffer =>
    obtain ⟨-, -, rfl⟩ := System.step_begin hstep
    have hne : node ≠ d := fun heq => hother (congrArg Coordinator.nodeId heq.symm)
    refine ⟨⟨hreach, Function.update_of_ne hne _ _, rfl, fun c hc => ?_⟩,
      fun i c hc _ => phases_newCall hc d buffer⟩
    rcases System.mem_calls_enroll hc with hc | rfl
    · exact .inl hc
    · exact .inr hother
  | reply j reply =>
    obtain ⟨d, r, hd, -, -, rfl⟩ := System.step_reply hstep
    refine ⟨⟨hreach, rfl, rfl, fun _ => .inl⟩, fun i c hc hnode =>
      Function.update_of_ne ?_ _ _⟩
    rintro rfl
    exact hother c hc hnode
  | apply r =>
    obtain ⟨-, shard, error, -, rfl⟩ := System.step_apply hstep
    exact ⟨⟨hreach, rfl, rfl, fun _ => .inl⟩, fun _ _ _ _ => rfl⟩
  | client sid command =>
    obtain ⟨shard, error, -, -, rfl⟩ := System.step_client hstep
    exact ⟨⟨hreach, rfl, rfl, fun _ => .inl⟩, fun _ _ _ _ => rfl⟩
  | restartCoordinator d =>
    obtain rfl := Option.some.inj hstep
    refine ⟨⟨hreach, Function.update_of_ne (Ne.symm hother) _ _,
      Function.update_of_ne (Ne.symm hother) _ _, fun _ => .inl⟩, fun i c hc hnode => ?_⟩
    rw [phases_restart hc]
    exact if_neg fun heq => hother (heq.symm.trans hnode)
  | restartShard sid =>
    obtain rfl := Option.some.inj hstep
    exact ⟨⟨hreach, rfl, rfl, fun _ => .inl⟩, fun _ _ _ _ => rfl⟩

lemma elsewhere_reach (h : Reach Step (Elsewhere node) s s') : Goes node s s' ∧
    ∀ i c phase, c.coordinator = node → Stands s i c phase → Stands s' i c phase := by
  induction h with
  | refl => exact ⟨.refl, fun _ _ _ _ h => h⟩
  | tail _ hok hstep ih =>
    obtain ⟨hgoes, hphases⟩ := elsewhere_step hok hstep
    obtain ⟨hsent, hcalls⟩ := sent_step hstep
    refine ⟨ih.1.trans hgoes, fun i c phase hnode h => ?_⟩
    obtain ⟨hcall, hphase, hrequest⟩ := ih.2 i c phase hnode h
    exact ⟨hcalls i c hcall, (hphases i c hcall hnode).trans hphase,
      fun r hr => hsent (hrequest r hr)⟩

lemma done_step {e : Event} (hstep : Step s e s') : s.done ⊆ s'.done := by
  cases e with
  | begin d buffer =>
    obtain ⟨-, -, rfl⟩ := System.step_begin hstep
    exact List.Subset.refl _
  | reply j reply =>
    obtain ⟨d, r, -, -, -, rfl⟩ := System.step_reply hstep
    exact List.Subset.refl _
  | apply r =>
    obtain ⟨-, shard, error, -, rfl⟩ := System.step_apply hstep
    show s.done ⊆ if error = [] then s.done ++ [r] else s.done
    split_ifs
    · exact List.subset_append_left _ _
    · exact List.Subset.refl _
  | client sid command =>
    obtain ⟨shard, error, -, -, rfl⟩ := System.step_client hstep
    exact List.Subset.refl _
  | restartCoordinator d | restartShard sid =>
    obtain rfl := Option.some.inj hstep
    exact List.Subset.refl _

lemma Goes.done (h : Goes node s s') : s.done ⊆ s'.done :=
  h.reach.invariant (I := fun t => s.done ⊆ t.done) (List.Subset.refl _)
    fun _ _ _ hs _ hstep => List.Subset.trans hs (done_step hstep)

/-! ### The loops of `RunTransaction` -/

namespace Plays

variable {E : σ → System → Prop}

/-- **One request**: the call goes on as its reply says. -/
lemma ask (h : Plays o node E) (hw : E w s) (hs : Stands s i c phase) (hnode : c.coordinator = node)
    {sid : ShardId} {command : Bytes} (hrequest : c.request phase = some (sid, command)) :
    ∃ s', Goes node s s' ∧ E (o.propose sid command w).1 s' ∧
      Stands s' i c (c.receive (reply (o.propose sid command w).2) phase) ∧
      ((reply (o.propose sid command w).2).failure sid = none →
        (i, sid, command) ∈ s'.done) := by
  have hsent : (i, sid, command) ∈ s.sent := hs.sent (sid, command) hrequest
  obtain ⟨s₁, hreach, hw₁, hdone⟩ := h.request hw hs.call hnode hsent
  obtain ⟨hgoes, hkeeps⟩ := elsewhere_reach hreach
  obtain ⟨hcall, hphase, -⟩ := hkeeps i c phase hnode hs
  let resp := reply (o.propose sid command w).2
  let s₂ := s₁.proceed i c (c.receive resp phase)
  have hstep : Step s₁ (.reply i resp) s₂ := by
    show System.step s₁ (.reply i resp) = some s₂
    have hguard : (resp.failure sid).isSome ∨ (i, sid, command) ∈ s₁.done := by
      cases hfailure : resp.failure sid with
      | none => exact .inr (hdone hfailure)
      | some reason => exact .inl rfl
    simp only [System.step, hcall, hphase, hrequest]
    exact if_pos hguard
  have hfirst : FirstProcess s₁ (.reply i resp) := trivial
  refine ⟨s₂, hgoes.trans ⟨.tail .refl hfirst hstep, rfl, rfl, fun _ => .inl⟩,
    h.own hw₁ rfl rfl (List.subset_append_left _ _),
      ⟨hcall, Function.update_self _ _ _, ?_⟩, hdone⟩
  intro r hr
  refine List.mem_append_right _ (List.mem_map.mpr ⟨r, ?_, rfl⟩)
  rw [hr]
  exact List.mem_singleton_self r

lemma tellAll_failures {command : Bytes} (todo : List ShardId) (failures : List Bytes) (w : σ) :
    failures <+: (tellAll o command todo failures w).2 := by
  induction todo generalizing failures w with
  | nil => exact List.prefix_rfl
  | cons sid todo ih =>
    unfold tellAll
    exact (List.prefix_append _ _).trans (ih _ _)

lemma tellAll (h : Plays o node E) (hnode : c.coordinator = node) {command : Bytes}
    {F : List Bytes → List ShardId → Phase}
    (hrequest : ∀ failures sid todo, c.request (F failures (sid :: todo)) = some (sid, command))
    (hreceive : ∀ reply failures sid todo, c.receive reply (F failures (sid :: todo)) =
      F (failures ++ (reply.failure sid).toList) todo)
    {todo : List ShardId} {failures : List Bytes} (hw : E w s)
    (hs : Stands s i c (F failures todo)) :
    ∃ s', Goes node s s' ∧ E (tellAll o command todo failures w).1 s' ∧
      Stands s' i c (F (tellAll o command todo failures w).2 []) ∧
      ((tellAll o command todo failures w).2 = [] →
        ∀ sid ∈ todo, (i, sid, command) ∈ s'.done) := by
  induction todo generalizing failures w s with
  | nil => exact ⟨s, .refl, hw, hs, fun _ => List.forall_mem_nil _⟩
  | cons sid todo ih =>
    obtain ⟨s₁, hgoes₁, hw₁, hs₁, hdone₁⟩ :=
      h.ask hw hs hnode (hrequest failures sid todo)
    rw [hreceive] at hs₁
    obtain ⟨s₂, hgoes₂, hw₂, hs₂, hdone₂⟩ := ih hw₁ hs₁
    refine ⟨s₂, hgoes₁.trans hgoes₂, hw₂, hs₂, fun hnil =>
      List.forall_mem_cons.mpr ⟨?_, ?_⟩⟩
    · have hfailures := @tellAll_failures _ o command todo
        (failures ++ ((reply (o.propose sid command w).2).failure sid).toList)
        (o.propose sid command w).1
      have hnil : (Shell.tellAll o command todo _ (o.propose sid command w).1).2 = [] := hnil
      rw [hnil, List.prefix_nil, List.append_eq_nil_iff] at hfailures
      exact hgoes₂.done (hdone₁ (Option.toList_eq_nil_iff.mp hfailures.2))
    · exact hdone₂ hnil

/-- The phase at the end of the loop of the PREPAREs. -/
def prepared (c : Call) : List ShardId × Option Bytes → Phase
  | (preparedShards, some reason) => .aborting preparedShards reason [] preparedShards
  | (_, none) => .committing [] c.shardIds

lemma prepareAll (h : Plays o node E) (hnode : c.coordinator = node)
    {rest : List (ShardId × TxnPrepare)} {preparedShards : List ShardId}
    (hrest : ∀ e ∈ rest, c.prepares.find e.1 = some e.2) (hw : E w s)
    (hs : Stands s i c (c.prepareNext preparedShards (rest.map Prod.fst))) :
    ∃ s', Goes node s s' ∧ E (prepareAll o rest preparedShards w).1 s' ∧
      Stands s' i c (prepared c (prepareAll o rest preparedShards w).2) := by
  induction rest generalizing preparedShards w s with
  | nil => exact ⟨s, .refl, hw, hs⟩
  | cons e rest ih =>
    obtain ⟨sid, prepare⟩ := e
    obtain ⟨hfind, hrest⟩ := List.forall_mem_cons.mp hrest
    have hphase : c.prepareNext preparedShards (((sid, prepare) :: rest).map Prod.fst) =
        .preparing preparedShards (sid :: rest.map Prod.fst) := if_neg (List.cons_ne_nil _ _)
    rw [hphase] at hs
    have hrequest : c.request (.preparing preparedShards (sid :: rest.map Prod.fst)) =
        some (sid, encodeTxnPrepare prepare) := by
      show (c.prepares.find sid).map _ = _
      rw [hfind]
      rfl
    obtain ⟨s₁, hgoes₁, hw₁, hs₁, -⟩ := h.ask hw hs hnode hrequest
    unfold Shell.prepareAll
    rcases hpropose : o.propose sid (encodeTxnPrepare prepare) w with ⟨w', resp⟩
    rw [hpropose] at hw₁ hs₁
    dsimp only at hw₁ hs₁ ⊢
    simp only [Call.receive] at hs₁
    cases hfailure : (reply resp).failure sid with
    | some reason =>
      rw [hfailure] at hs₁
      exact ⟨s₁, hgoes₁, hw₁, hs₁⟩
    | none =>
      rw [hfailure] at hs₁
      obtain ⟨s₂, hgoes₂, hw₂, hs₂⟩ := ih hrest hw₁ hs₁
      exact ⟨s₂, hgoes₁.trans hgoes₂, hw₂, hs₂⟩

/-- **`RunTransaction` is a call of the system.** -/
theorem runTransaction (h : Plays o node E) (hnode : c.coordinator = node) (hw : E w s)
    (hs : Stands s i c (c.prepareNext [] c.shardIds)) :
    ∃ s' phase, Goes node s s' ∧ E (runTransaction o c.txnId c.buffer w).1 s' ∧
      Stands s' i c phase ∧ c.outcome phase = some (runTransaction o c.txnId c.buffer w).2 ∧
      (phase = .committing [] [] →
        ∀ sid ∈ c.shardIds, (i, sid, encodeTxnCommit c.txnId) ∈ s'.done) := by
  have hentries : ∀ e ∈ c.prepares.entries, c.prepares.find e.1 = some e.2 :=
    fun e he => (OrdMap.mem_entries _).mp he
  obtain ⟨s₁, hgoes₁, hw₁, hs₁⟩ := h.prepareAll hnode hentries hw hs
  have hbyShard : byShard c.txnId c.buffer = c.prepares := rfl
  unfold Shell.runTransaction
  rw [hbyShard]
  rcases hprepare : Shell.prepareAll o c.prepares.entries [] w with
    ⟨w₁, preparedShards, reason⟩
  rw [hprepare] at hw₁ hs₁
  cases reason with
  | some reason =>
    have hrequest : ∀ failures sid todo, c.request (.aborting preparedShards reason failures
        (sid :: todo)) = some (sid, encodeTxnAbort c.txnId) := fun _ _ _ => rfl
    obtain ⟨s₂, hgoes₂, hw₂, hs₂, -⟩ := h.tellAll hnode hrequest
      (fun _ _ _ _ => rfl) hw₁ hs₁
    refine ⟨s₂, _, hgoes₁.trans hgoes₂, hw₂, hs₂, rfl, fun heq => ?_⟩
    cases heq
  | none =>
    have hrequest : ∀ failures sid todo, c.request (.committing failures (sid :: todo)) =
        some (sid, encodeTxnCommit c.txnId) := fun _ _ _ => rfl
    obtain ⟨s₂, hgoes₂, hw₂, hs₂, hdone⟩ := h.tellAll hnode hrequest
      (fun _ _ _ _ => rfl) hw₁ hs₁
    have hshards : c.prepares.entries.map Prod.fst = c.shardIds := rfl
    dsimp only
    rw [hshards]
    rcases htell : Shell.tellAll o (encodeTxnCommit c.txnId) c.shardIds [] w₁ with
      ⟨w₂, failures⟩
    rw [htell] at hw₂ hs₂ hdone
    refine ⟨s₂, _, hgoes₁.trans hgoes₂, ?_, hs₂, ?_, fun heq => hdone ?_⟩
    · cases failures <;> exact hw₂
    · cases failures <;> rfl
    · cases failures with
      | nil => rfl
      | cons f failures => cases heq

end Plays

/-! ### Sessions -/

/-- The world shows a state in which the process has begun `n` transactions. -/
def Shows (E : σ → System → Prop) (s₀ : System) (node : Coordinator)
    (n : ℕ) (w : σ) : Prop :=
  ∃ s, Reach Step FirstProcess s₀ s ∧ E w s ∧ Fresh node n s

/-- The call that `commit` makes. -/
def callOf (p : Process) (repl : Repl) : Call :=
  ⟨coordinator p, nextTxnId p repl, repl.txnBuffer⟩

namespace Plays

variable {E : σ → System → Prop} {s₀ : System}

lemma keeps (h : Plays o node E) :
    Keeps o (fun _ command => command.head? ≠ some 0) (Shows E s₀ node n) where
  propose := fun sid command w hcommand ⟨s, hreach, hw, hfresh⟩ => by
    obtain ⟨s', hother, hw'⟩ := h.statement hw hcommand
    obtain ⟨hgoes, -⟩ := elsewhere_reach hother
    exact ⟨s', hreach.trans hgoes.reach, hw', hgoes.fresh hfresh⟩
  read := fun sid sql w ⟨s, hreach, hw, hfresh⟩ => by
    obtain ⟨s', hother, hw'⟩ := h.read hw
    obtain ⟨hgoes, -⟩ := elsewhere_reach hother
    exact ⟨s', hreach.trans hgoes.reach, hw', hgoes.fresh hfresh⟩

/-- **`commit`** begins a transaction, and its call goes on to its end. -/
lemma commit (h : Plays o (coordinator p) E) (hnode : p.nodeId < 2 ^ 32) {repl : Repl}
    (hw : Shows E s₀ (coordinator p) repl.txnCounter w) (hcounter : repl.txnCounter + 1 < 2 ^ 32)
    (hfits : Fits repl.txnBuffer) (hin : repl.inTxn = true) (hne : repl.txnBuffer ≠ []) :
    ∃ w' out i phase s, commit o p repl w =
        (w', ⟨false, [], repl.txnCounter + 1⟩, out ++ endl) ∧
      Reach Step FirstProcess s₀ s ∧ E w' s ∧ Fresh (coordinator p)
        (repl.txnCounter + 1) s ∧
      Stands s i (callOf p repl) phase ∧ (callOf p repl).outcome phase = some out ∧
      (phase = .committing [] [] → ∀ sid ∈ (callOf p repl).shardIds,
        (i, sid, encodeTxnCommit (callOf p repl).txnId) ∈ s.done) := by
  obtain ⟨s, hreach, hws, hfresh⟩ := hw
  have hid : s.nextTxnId (coordinator p) = nextTxnId p repl := by
    rw [System.nextTxnId, hfresh.counter]
    rfl
  have hmod : (repl.txnCounter + 1) % 2 ^ 32 = repl.txnCounter + 1 := Nat.mod_eq_of_lt hcounter
  let s₁ := s.newCall (coordinator p) repl.txnBuffer
  have hstep : Step s (.begin (coordinator p) repl.txnBuffer) s₁ := if_pos ⟨hnode, hne⟩
  have hfirst : FirstProcess s (.begin (coordinator p) repl.txnBuffer) :=
    ⟨hfresh.earlier, hfresh.counter.symm ▸ hcounter, hfresh.alone, hfits⟩
  -- the counter of the process and that of the loop go up together
  have hfresh₁ : Fresh (coordinator p) (repl.txnCounter + 1) s₁ := by
    refine ⟨hfresh.earlier, (Function.update_self _ _ _).trans ?_, fun c hc hid => ?_⟩
    · rw [hfresh.counter, hmod]
    · rcases System.mem_calls_enroll hc with hc | rfl
      · exact hfresh.alone c hc hid
      · rfl
  have hstands : Stands s₁ s.calls.length (callOf p repl)
      ((callOf p repl).prepareNext [] (callOf p repl).shardIds) := by
    have hcall : (⟨coordinator p, s.nextTxnId (coordinator p), repl.txnBuffer⟩ : Call) =
        callOf p repl := by
      rw [hid, callOf]
    refine ⟨?_, ?_, fun r hr => ?_⟩
    · show (s.calls ++ [_])[s.calls.length]? = _
      rw [hcall, List.getElem?_concat_length]
    · show Function.update _ _ _ _ = _
      rw [hcall, Function.update_self]
    · show _ ∈ s.sent ++ List.map _ _
      rw [hcall, hr]
      exact List.mem_append_right _ (List.mem_singleton_self _)
  have hw₁ : E w s₁ := h.own hws rfl rfl (List.subset_append_left _ _)
  obtain ⟨s', phase, hgoes, hw', hstands', hout, hdone⟩ := h.runTransaction rfl hw₁ hstands
  refine ⟨_, _, s.calls.length, phase, s', ?_, (hreach.tail hfirst hstep).trans hgoes.reach, hw',
    hgoes.fresh hfresh₁, hstands', hout, hdone⟩
  unfold Shell.commit
  rw [if_pos hin, if_neg hne]
  dsimp only
  rw [hmod]
  rw [show (callOf p repl).txnId = p.nodeId * 2 ^ 32 + (repl.txnCounter + 1) by
    rw [callOf, nextTxnId, hmod]]
  rfl

end Plays

lemma command_plain {repl : Repl} {input : Bytes} {sid : ShardId} {command : Bytes}
    (h : Sends p repl input sid command)
    (hother : ¬(StartsWith input "commit" ∧ repl.inTxn = true ∧ repl.txnBuffer ≠ [])) :
    command.head? ≠ some 0 := by
  have hnone : ∀ {sid prepare}, StartsWith input "commit" → repl.inTxn = true →
      (sid, prepare) ∉ (byShard (nextTxnId p repl) repl.txnBuffer).entries := by
    intro sid prepare hcommit hin he
    have hbuffer : repl.txnBuffer = [] := not_not.mp fun hne => hother ⟨hcommit, hin, hne⟩
    rw [hbuffer] at he
    cases he
  cases h with
  | statement _ hparse => exact (Dispatch.head_of_parse hparse).1
  | prepare hcommit hin he | abort hcommit hin he | commit hcommit hin he =>
    exact absurd he (hnone hcommit hin)
  | addServer | removeServer =>
    rw [Dispatch.head_encodeConfChange]
    simp

/-- What is known of a session behind `n` lines. -/
structure Sound (E : σ → System → Prop) (s₀ : System) (node : Coordinator) (n : ℕ)
    (repl : Repl) (w : σ) : Prop where
  shows : Shows E s₀ node repl.txnCounter w
  count : repl.txnCounter ≤ n
  fits : BufferFits n repl.txnBuffer

lemma fits_of_buffer {buffer : List BufferedTxnStatement} (h : BufferFits n buffer)
    (hn : n < 2 ^ 32) : Fits buffer := ⟨h.count.trans_lt hn, h.lengths⟩

lemma pass_commit {repl : Repl} {input : Bytes} (h : StartsWith input "commit") :
    pass o p repl input w = ((commit o p repl w).1, .ok (commit o p repl w).2) := by
  obtain ⟨args, hfirst⟩ := h
  rw [firstWord] at hfirst
  unfold Shell.pass
  rw [hfirst]
  rfl

namespace Plays

variable {E : σ → System → Prop} {s₀ : System}

lemma pass (h : Plays o (coordinator p) E) (hnode : p.nodeId < 2 ^ 32) {repl repl' : Repl}
    {input out : Bytes} {w' : σ} (hpass : pass o p repl input w = (w', .ok (repl', out)))
    (hshort : Short input) (hn : n + 1 < 2 ^ 32) (hs : Sound E s₀ (coordinator p) n repl w) :
    Sound E s₀ (coordinator p) (n + 1) repl' w' := by
  have hturns : Turns o p w repl input repl' := pass_turns (congrArg Prod.snd hpass)
  have hfits := hturns.bufferFits hshort hs.fits
  by_cases hcommit : StartsWith input "commit" ∧ repl.inTxn = true ∧ repl.txnBuffer ≠ []
  · obtain ⟨hword, hin, hne⟩ := hcommit
    have hcount := Nat.add_le_add_right hs.count 1
    obtain ⟨w₁, out₁, i, phase, s, heq, hreach, hw, hfresh, -⟩ := h.commit hnode hs.shows
      (hcount.trans_lt hn) (fits_of_buffer hs.fits (Nat.lt_of_succ_lt hn)) hin hne
    rw [pass_commit hword, heq] at hpass
    obtain ⟨rfl, hrepl⟩ := Prod.mk.inj hpass
    obtain ⟨rfl, rfl⟩ := Prod.mk.inj (Except.ok.inj hrepl)
    exact ⟨⟨s, hreach, hw, hfresh⟩, hcount, hfits⟩
  · have hkept := h.keeps.pass (p := p) (fun _ _ hsend => command_plain hsend hcommit) hs.shows
    rw [hpass] at hkept
    have hcounter : repl'.txnCounter = repl.txnCounter := by
      cases hturns with
      | same | begin | rollback | commitEmpty | stage => rfl
      | commit hword hin hne => exact absurd ⟨hword, hin, hne⟩ hcommit
    refine ⟨?_, ?_, hfits⟩
    · rw [hcounter]
      exact hkept
    · rw [hcounter]
      exact hs.count.trans (Nat.le_succ n)

lemma session (h : Plays o (coordinator p) E) (hnode : p.nodeId < 2 ^ 32) {lines : List Bytes}
    (hlines : ∀ line ∈ lines, Short line) {repl repl' : Repl} {w' : σ}
    (hsession : session o p lines repl w = (w', .ok repl')) (hn : n + lines.length < 2 ^ 32)
    (hs : Sound E s₀ (coordinator p) n repl w) : Sound E s₀ (coordinator p)
    (n + lines.length) repl' w' := by
  induction lines generalizing n repl w with
  | nil =>
    obtain ⟨rfl, hrepl⟩ := Prod.mk.inj hsession
    obtain rfl := Except.ok.inj hrepl
    exact hs
  | cons line lines ih =>
    obtain ⟨hline, hlines⟩ := List.forall_mem_cons.mp hlines
    rw [List.length_cons] at hn ⊢
    unfold Shell.session at hsession
    split at hsession
    · rename_i w₁ repl₁ out hpass
      have hnext := h.pass hnode hpass hline (by omega) hs
      rw [show n + (lines.length + 1) = n + 1 + lines.length by omega]
      exact ih hlines hsession (by omega) hnext
    · cases hsession

end Plays

/-! ### What is printed -/

lemma request_of_outcome (h : (c.outcome phase).isSome) : c.request phase = none := by
  cases phase with
  | preparing => cases h
  | aborting _ _ _ todo | committing _ todo =>
    cases todo with
    | nil => rfl
    | cons sid todo => simp [Call.outcome] at h
  | lost => rfl

lemma ended_step {e : Event} (hc : s.calls[i]? = some c) (hphase : s.phases i = phase)
    (hended : (c.outcome phase).isSome) (hstep : Step s e s') : s'.phases i = phase := by
  cases e with
  | begin d buffer =>
    obtain ⟨-, -, rfl⟩ := System.step_begin hstep
    exact (phases_newCall hc d buffer).trans hphase
  | reply j reply =>
    obtain ⟨d, r, hd, hr, -, rfl⟩ := System.step_reply hstep
    refine (Function.update_of_ne ?_ _ _).trans hphase
    rintro rfl
    obtain rfl := Option.some.inj (hc.symm.trans hd)
    rw [hphase, request_of_outcome hended] at hr
    cases hr
  | apply r =>
    obtain ⟨-, shard, error, -, rfl⟩ := System.step_apply hstep
    exact hphase
  | client sid command =>
    obtain ⟨shard, error, -, -, rfl⟩ := System.step_client hstep
    exact hphase
  | restartCoordinator d =>
    obtain rfl := Option.some.inj hstep
    rw [phases_restart hc, Call.lose, hphase, if_pos hended, ite_self]
  | restartShard sid =>
    obtain rfl := Option.some.inj hstep
    exact hphase

lemma ended_reach {ok : System → Event → Prop} (h : Reach Step ok s s')
    (hc : s.calls[i]? = some c) (hphase : s.phases i = phase)
    (hended : (c.outcome phase).isSome) : s'.calls[i]? = some c ∧ s'.phases i = phase := by
  refine h.invariant (I := fun t => t.calls[i]? = some c ∧ t.phases i = phase) ⟨hc, hphase⟩ ?_
  rintro t e t' ⟨hcall, hat⟩ _ hstep
  exact ⟨(sent_step hstep).2 i c hcall, ended_step hcall hat hended hstep⟩

lemma named_of_reach (h : Reach Step FirstProcess .init s) : Inv s ∧ Named s := by
  refine h.invariant (I := fun s => Inv s ∧ Named s) ⟨Inv.init, Named.init⟩ ?_
  exact fun _ _ _ hs hok hstep => ⟨hs.1.step hstep, hs.2.step hs.1 hok hstep⟩

lemma distinct_of_first {e : Event} (hs : Inv s ∧ Named s) (hok : FirstProcess s e)
    (hstep : Step s e s') : DistinctIds s e := by
  cases e with
  | begin d buffer =>
    obtain ⟨-, -, rfl⟩ := System.step_begin hstep
    intro call hcall heq
    obtain ⟨j, hj⟩ := List.mem_iff_getElem?.mp hcall
    have hlt := (List.getElem?_eq_some_iff.mp hj).1
    have hnew := hs.2.newCall hs.1 hok.1 hok.2.1 hok.2.2.1 hok.2.2.2
    have hj' : (s.newCall d buffer).calls[j]? = some call := by
      show (s.calls ++ _)[j]? = _
      rw [List.getElem?_append_left hlt, hj]
    have hlast : (s.newCall d buffer).calls[s.calls.length]? =
        some ⟨d, s.nextTxnId d, buffer⟩ := List.getElem?_concat_length ..
    exact absurd (hnew.unique hj' hlast heq) hlt.ne
  | reply | apply | client | restartCoordinator | restartShard => trivial

lemma distinct_trace {tr : List (System × Event)} (h : Trace Step FirstProcess .init tr s) :
    Trace Step DistinctIds .init tr s := by
  induction h with
  | refl => exact .refl
  | tail h hok hstep ih =>
    exact ih.tail (distinct_of_first (named_of_reach h.reach) hok hstep) hstep

lemma exists_last {α : Type*} {P : α → Prop} {l : List α} (h : ∃ x ∈ l, P x) :
    ∃ later x earlier, l = later ++ x :: earlier ∧ P x ∧ ∀ y ∈ earlier, ¬ P y := by
  induction l with
  | nil =>
    obtain ⟨x, hx, -⟩ := h
    cases hx
  | cons x l ih =>
    by_cases hl : ∃ y ∈ l, P y
    · obtain ⟨later, y, earlier, rfl, hy⟩ := ih hl
      exact ⟨x :: later, y, earlier, rfl, hy⟩
    · have hnone : ∀ y ∈ l, ¬ P y := fun y hy hP => hl ⟨y, hy, hP⟩
      refine ⟨[], x, l, rfl, ?_, hnone⟩
      obtain ⟨y, hy, hP⟩ := h
      rcases List.mem_cons.mp hy with rfl | hy
      · exact hP
      · exact absurd hP (hnone y hy)

lemma commands_ne_nil {sid : ShardId} {prepare : TxnPrepare}
    (h : c.prepares.find sid = some prepare) : prepare.commands ≠ [] := by
  unfold Call.prepares at h
  rw [find_byShard] at h
  split_ifs at h with hnil
  cases h
  simpa using hnil

/-- **A shard that has answered the COMMIT** has run the statements, unless it has restarted. -/
lemma runs_of_done {tr : List (System × Event)} (h : Trace Step FirstProcess .init tr s)
    (hkept : ∀ x ∈ tr, ∀ sid, x.2 ≠ .restartShard sid) (hc : s.calls[i]? = some c)
    {sid : ShardId} (hsid : sid ∈ c.shardIds)
    (hdone : (i, sid, encodeTxnCommit c.txnId) ∈ s.done) :
    ∃ x ∈ tr, ∃ q, Runs sid c.txnId q x ∧
      q.commands = (c.buffer.filter (·.shardId = sid)).map (·.sql) := by
  obtain ⟨hinv, hnamed⟩ := named_of_reach h.reach
  have hmem := List.mem_of_getElem? hc
  have hdistinct := distinct_trace h
  obtain ⟨y, hy, hevent, -, -⟩ := answered h hdone
  have hreceives : Receives kCommit sid c.txnId y.2 := by
    rw [hevent]
    exact ⟨rfl, _, tryDecode_resolution (.inl rfl) (hinv.txnId_lt hmem), rfl, rfl⟩
  -- the first COMMIT that is applied there
  obtain ⟨later, x, earlier, rfl, hx, hfirst⟩ :=
    exists_last (P := fun x => Receives kCommit sid c.txnId x.2) ⟨y, hy, hreceives⟩
  obtain ⟨hbefore, -, s₁, hstep, hafter⟩ := h.split
  have hcalls : ∀ {c'}, c' ∈ x.1.calls → c'.txnId = c.txnId → c' = c := by
    intro c' hc' hid
    obtain ⟨j, hj⟩ := List.mem_iff_getElem?.mp hc'
    have hj' := (sent_reach hafter).2 j c' ((sent_step hstep).2 j c' hj)
    exact hnamed.eq_of_txnId (List.mem_of_getElem? hj') hmem hid
  obtain ⟨c', hc', hid, hvotes⟩ := voted_of_receives hdistinct hx
  obtain rfl := hcalls hc' hid
  obtain ⟨v, hv, hvote⟩ := hvotes sid hsid
  obtain ⟨e₁, e₂, rfl⟩ := List.append_of_mem hv
  have hsteady : Trace Step Steady .init (e₁ ++ v :: e₂) x.1 := by
    obtain ⟨hbefore', -⟩ := (hdistinct.and
      (P := fun e => ∀ sid, e ≠ .restartShard sid) hkept).split
    exact hbefore'
  obtain ⟨-, -, s₂, hs₂, -⟩ := hsteady.split
  obtain ⟨q, hq⟩ := Option.isSome_iff_exists.mp (pending_of_votes hvote hs₂)
  have hatx := find_kept hsteady hs₂ hq (fun z hz => hfirst z (List.mem_append_left _ hz))
    fun z hz => not_discards hdistinct hy hreceives (List.mem_append_right _
      (List.mem_cons_of_mem _ (List.mem_append_left _ hz))) sid
  obtain ⟨c'', prepare, hc'', hid'', hfind, rfl⟩ :=
    (named_of_reach hbefore.reach).2.pending hatx
  obtain rfl := hcalls hc'' hid''
  exact ⟨x, List.mem_append_right _ List.mem_cons_self, _,
    ⟨⟨hx, _, hatx, commands_ne_nil hfind⟩, hatx⟩, (Call.find_prepares hfind).2.2⟩

/-- What was printed about a transaction is so, in this state of the shards and in every later
one. -/
structure Told (s : System) (c : Call) (out : Bytes) : Prop where
  /-- No shard runs it, before or after. -/
  aborted : text "ABORTED" <+: out → ∀ {s' tr}, Reach Step FirstProcess s s' →
    Trace Step FirstProcess .init tr s' → ∀ sid, ∀ x ∈ tr, ¬ Executes sid c.txnId x
  /-- Every shard has run its statements, unless one has restarted. -/
  committed : text "OK" <+: out → ∀ {tr}, Trace Step FirstProcess .init tr s →
    (∀ x ∈ tr, ∀ sid, x.2 ≠ .restartShard sid) → ∀ sid ∈ c.shardIds, ∃ x ∈ tr,
      ∃ q, Runs sid c.txnId q x ∧ q.commands = (c.buffer.filter (·.shardId = sid)).map (·.sql)
  /-- No shard discards it, before or after. -/
  decided : ¬ text "ABORTED" <+: out → ∀ {s' tr}, Reach Step FirstProcess s s' →
    Trace Step FirstProcess .init tr s' → ∀ sid, ∀ x ∈ tr, ¬ Discards sid c.txnId x

lemma told_of_outcome (hs : Stands s i c phase)
    {out : Bytes} (hout : c.outcome phase = some out) (hdone : phase = .committing [] [] →
      ∀ sid ∈ c.shardIds, (i, sid, encodeTxnCommit c.txnId) ∈ s.done) : Told s c out := by
  have hended : (c.outcome phase).isSome := by
    rw [hout]
    rfl
  -- what a call has not sent by its end is not applied to the shards
  have hnever : ∀ {type}, type = kCommit ∨ type = kAbort → ∀ {s' : System} {tr},
      Reach Step FirstProcess s s' → Trace Step FirstProcess .init tr s' →
      (PhaseOk s' i c phase → NotSent s' i (encodeControl type c.txnId)) →
      ∀ sid, ∀ x ∈ tr, ¬ Receives type sid c.txnId x.2 := by
    intro type htype s' tr hlater htr hnot sid x hx hreceives
    have hdistinct := distinct_trace htr
    obtain ⟨hcall, hphase⟩ := ended_reach hlater hs.call hs.here hended
    have hdecided := Decided.reach hdistinct.reach
    obtain ⟨j, c', hc', hid, hsent⟩ := sent_of_receives hdistinct hx hreceives htype
    obtain rfl := hdecided.unique hc' hcall hid
    exact hnot (hphase ▸ hdecided.phase hcall) sid hsent
  have hhead : ∀ {a b : Bytes}, a <+: b → a ≠ [] → b.head? = a.head? := by
    rintro a b ⟨rest, rfl⟩ hne
    exact List.head?_append_of_ne_nil _ hne
  cases phase with
  | preparing | lost => cases hended
  | aborting prepared reason failures todo =>
    cases todo with
    | cons => cases hended
    | nil =>
      obtain rfl := Option.some.inj hout
      refine ⟨fun _ => ?_, fun hok => ?_, fun hnot => ?_⟩
      · intro s' tr hlater htr sid x hx hexecutes
        exact hnever (.inl rfl) hlater htr (fun hok => hok) sid x hx hexecutes.1
      · exact absurd (hhead hok (by decide)) (by simp [text])
      · exact absurd ⟨_, by simp only [List.append_assoc]; rfl⟩ hnot
  | committing failures todo =>
    cases todo with
    | cons => cases failures <;> cases hended
    | nil =>
      have hcommits : ∀ {s' : System} {tr}, Reach Step FirstProcess s s' →
          Trace Step FirstProcess .init tr s' →
            ∀ sid, ∀ x ∈ tr, ¬ Discards sid c.txnId x :=
        fun hlater htr sid x hx hdiscards =>
          hnever (.inr rfl) hlater htr (fun hok => hok.2) sid x hx hdiscards.1
      cases failures with
      | nil =>
        obtain rfl := Option.some.inj hout
        refine ⟨fun habort => ?_, fun _ => ?_, fun _ => hcommits⟩
        · exact absurd (hhead habort (by decide)) (by simp [text])
        · intro tr htr hkept sid hsid
          exact runs_of_done htr hkept hs.call hsid (hdone rfl sid hsid)
      | cons f failures =>
        obtain rfl := Option.some.inj hout
        refine ⟨fun habort => ?_, fun hok => ?_, fun _ => hcommits⟩
        · exact absurd (hhead habort (by decide)) (by simp [text])
        · exact absurd (hhead hok (by decide)) (by simp [text])

/-- **What is printed is true**: behind every session, whatever else goes on, a `commit` is one
call of `RunTransaction`, and what it prints of the transaction is so, then and later. -/
theorem told_true {E : σ → System → Prop} (h : Plays o (coordinator p) E)
    (hnode : p.nodeId < 2 ^ 32) {s₀ : System} {w₀ : σ} (hw₀ : E w₀ s₀)
    (hfresh : Fresh (coordinator p) 0 s₀) {lines : List Bytes}
    (hlines : ∀ line ∈ lines, Short line) (hcount : lines.length + 1 < 2 ^ 32) {repl : Repl}
    (hsession : session o p lines .start w₀ = (w, .ok repl)) {input : Bytes}
    (hcommit : StartsWith input "commit") (hin : repl.inTxn = true) (hne : repl.txnBuffer ≠ []) :
    ∃ (w' : σ) (out : Bytes) (i : ℕ) (s : System),
      pass o p repl input w = (w', .ok (⟨false, [], repl.txnCounter + 1⟩, out ++ endl)) ∧
      Reach Step FirstProcess s₀ s ∧ E w' s ∧ s.calls[i]? = some (callOf p repl) ∧
      Told s (callOf p repl) out := by
  have hstart : Sound E s₀ (coordinator p) 0 .start w₀ :=
    ⟨⟨s₀, .refl, hw₀, hfresh⟩, le_rfl, ⟨le_rfl, List.forall_mem_nil _⟩⟩
  obtain ⟨hshows, hcounter, hfits⟩ := h.session hnode hlines hsession (by omega) hstart
  rw [Nat.zero_add] at hcounter hfits
  obtain ⟨w', out, i, phase, s, heq, hlater, hw', -, hstands, hout, hdone⟩ :=
    h.commit hnode hshows ((Nat.succ_le_succ hcounter).trans_lt hcount)
    (fits_of_buffer hfits (Nat.lt_of_succ_lt hcount)) hin hne
  refine ⟨w', out, i, s, ?_, hlater, hw', hstands.call,
    told_of_outcome hstands hout hdone⟩
  rw [pass_commit hcommit, heq]

/-- The shards, asked one request after the other. -/
def asked (home : ShardId) : Outside (ShardId → Shard) where
  propose sid command w :=
    match applyCallback (w sid) command with
    | .ok (shard, error) =>
      (Function.update w sid shard, .ok ⟨error = [], 0, false, 0, error⟩)
    | .error e => (w, .error e.what)
  read sid sql w := (w, answered (execute (w sid).store sql).2)
  engine w := (w home).store
  status _ := (.kLeader, 0, 0)

lemma asked_of_error {home sid : ShardId} {command : Bytes} {w : ShardId → Shard} {e : Exception}
    (h : applyCallback (w sid) command = .error e) :
    (asked home).propose sid command w = (w, .error e.what) := by
  simp only [asked, h]

lemma asked_of_ok {home sid : ShardId} {command error : Bytes} {w : ShardId → Shard}
    {shard : Shard} (h : applyCallback (w sid) command = .ok (shard, error)) :
    (asked home).propose sid command w =
      (Function.update w sid shard, .ok ⟨error = [], 0, false, 0, error⟩) := by
  simp only [asked, h]

lemma plays_asked (home : ShardId) : Plays (asked home) node fun w s => s.shards = w where
  request := by
    rintro w s i c sid command rfl - - hsent
    cases happly : applyCallback (s.shards sid) command with
    | error e =>
      rw [asked_of_error happly]
      refine ⟨s, .refl, rfl, fun hnone => ?_⟩
      cases hnone
    | ok result =>
      obtain ⟨shard, error⟩ := result
      rw [asked_of_ok happly]
      let s' : System := { s.setShard sid shard with
        done := if error = [] then s.done ++ [(i, sid, command)] else s.done }
      have hstep : Step s (.apply (i, sid, command)) s' := by
        show System.step s (.apply (i, sid, command)) = some s'
        simp only [System.step, if_pos hsent, happly]
        rfl
      have hother : Elsewhere node s (.apply (i, sid, command)) := ⟨trivial, trivial⟩
      refine ⟨s', .tail .refl hother hstep, rfl, fun hnone => ?_⟩
      have herror : error = [] := by
        by_contra hne
        simp [reply, Reply.failure, hne] at hnone
      show _ ∈ if error = [] then s.done ++ [(i, sid, command)] else s.done
      rw [if_pos herror]
      exact List.mem_append_right _ (List.mem_singleton_self _)
  statement := by
    rintro w s sid command rfl hplain
    have hdecode : tryDecodeTxnControl command = .ok none := if_neg hplain
    cases happly : applyCallback (s.shards sid) command with
    | error e =>
      rw [asked_of_error happly]
      exact ⟨s, .refl, rfl⟩
    | ok result =>
      obtain ⟨shard, error⟩ := result
      rw [asked_of_ok happly]
      have hstep : Step s (.client sid command) (s.setShard sid shard) := by
        show System.step s (.client sid command) = some (s.setShard sid shard)
        simp only [System.step, hdecode, happly]
      have hother : Elsewhere node s (.client sid command) := ⟨trivial, trivial⟩
      exact ⟨_, .tail .refl hother hstep, rfl⟩
  read := fun h => ⟨_, .refl, h⟩
  own := fun h hshards _ _ => hshards.trans h

def onFirst : Process := ⟨⟨64, FormattedInput.thirtyTwo_le⟩, 1, 1, SqlRouting.twoRanges⟩

def twoInserts : List Bytes := [
  text "CREATE DATABASE d",
  text "CREATE TABLE d.t (k INT PRIMARY KEY)",
  text "begin",
  text "INSERT INTO d.t (k) VALUES (0)",
  text "INSERT INTO d.t (k) VALUES (1)"]

/-- One statement is staged on each of two shards. -/
def staged : Repl where
  inTxn := true
  txnBuffer := [
    ⟨1, rowKey (text "d") (text "t") (text "0"), text "INSERT INTO d.t (k) VALUES (0)"⟩,
    ⟨2, rowKey (text "d") (text "t") (text "1"), text "INSERT INTO d.t (k) VALUES (1)"⟩]
  txnCounter := 0

/-- The session up to its `commit`. -/
def twoStaged : (ShardId → Shard) × Except Ending Repl :=
  session (asked 1) onFirst twoInserts .start fun _ => .start

lemma twoStaged_eq : twoStaged = (twoStaged.1, .ok staged) := by
  have hrepl : twoStaged.2.toOption = some staged := by decide +kernel
  generalize twoStaged = x at hrepl ⊢
  obtain ⟨w, _ | repl⟩ := x
  · cases hrepl
  · cases hrepl
    rfl

theorem told_true_twoShards : ∃ (w' : ShardId → Shard) (out : Bytes) (i : ℕ) (s : System),
    pass (asked 1) onFirst staged (text "commit") twoStaged.1 =
        (w', .ok (⟨false, [], 1⟩, out ++ endl)) ∧
      Reach Step FirstProcess .init s ∧ s.shards = w' ∧
      s.calls[i]? = some (callOf onFirst staged) ∧ Told s (callOf onFirst staged) out := by
  have hlines : ∀ line ∈ twoInserts, Short line := by
    have hlen : ∀ line ∈ twoInserts, 3 * line.length + 10 < 2 ^ 32 := by decide +kernel
    exact hlen
  have hshards : System.init.shards = fun _ => .start := rfl
  have hfresh : Fresh (coordinator onFirst) 0 .init :=
    ⟨rfl, rfl, fun _ hc => absurd hc List.not_mem_nil⟩
  have hcommit : StartsWith (text "commit") "commit" := ⟨[], by decide⟩
  have hbuffer : staged.txnBuffer ≠ [] := List.cons_ne_nil _ _
  exact told_true (plays_asked 1) (by decide) hshards hfresh hlines (by decide) twoStaged_eq
    hcommit rfl hbuffer

end DistDB.ShellCalls
