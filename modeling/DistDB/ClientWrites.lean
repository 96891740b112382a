import DistDB.ClusterErrors
import DistDB.Wire

/-!
One call of SendClientRequest (`raft/client.cpp`) or ProposeOrForward (`raft/node.cpp`) beside
a Raft group, and HandleClientRequest on the nodes it asks.

The call sends its command to one node after the other, until one gives an answer that ends
it. When an answer is lost, or a node loses the lead while it waits, the next node gets the
command once more, and both entries may be committed (`written_twice`). If the command is sent
again only while no node has appended it, one entry is committed at most, and a definite failure
is the error that was noted when this entry was applied (`written_once`).
-/

namespace DistDB.ClientWrites

open NodeModel NodeModel.Node ClusterModel Agreement Wire
open ApplyErrors (Record recording rejects)
open Elections (noCallbacks others keys_others)

variable {σ : Type}

/-! ### The call -/

def kMaxHops : ℕ := 4
def kMaxForwardHops : ℕ := 3

/-- Where `HandleClientRequest` is with a request. -/
inductive Stage
  | sent
  /-- `role()` was leader. -/
  | accepted
  /-- `Propose` has appended its entry and waits. -/
  | waiting
  /-- `Propose` has returned false without an error text; `role()` is to be read. -/
  | unconfirmed
  /-- `leader_hint()` is to be read. -/
  | failing (notLeader : Bool) (error : Bytes)
  | answered (resp : ClientResponse)
  /-- The handler has thrown, or its node was stopped. -/
  | gone
  deriving DecidableEq

/-- A thread of the node is at work on the request. -/
def Stage.isRunning : Stage → Bool
  | .accepted | .waiting | .unconfirmed | .failing .. => true
  | _ => false

structure Request where
  target : NodeId
  /-- Called by `ProposeOrForward` on its own node. -/
  onSelf : Bool
  stage : Stage
  /-- The entry that `Propose` has appended for it. -/
  appended : Option ClusterModel.Proposal

inductive Caller
  | sendClientRequest (clusterPeers : OrdMap NodeId PeerAddress)
  | proposeOrForward (v : NodeId)

inductive Phase
  | idle
  /-- `ProposeOrForward` is to read `leader_hint()`. -/
  | hinting
  /-- At the head of the loop. -/
  | heading (target : NodeId) (hop : ℕ)
  /-- For the answer to the request with this number. -/
  | waiting (i : ℕ) (hop : ℕ)
  | returned (resp : ClientResponse)
  | gone
  deriving DecidableEq

structure Sys (σ : Type) where
  cluster : Cluster σ
  phase : Phase
  /-- All that the call has sent. -/
  requests : List Request

def failed (target : NodeId) (error : Bytes) : Phase :=
  .returned ⟨false, 0, true, target, error⟩

def tooManyRedirects (target : NodeId) : Phase :=
  failed target (text "too many redirects while locating the leader")

def unreachable (target : NodeId) : Phase :=
  failed target (text "could not reach node " ++ toText target)

namespace Sys

def send (s : Sys σ) (target : NodeId) (onSelf : Bool) (hop : ℕ) : Sys σ :=
  { s with
    phase := .waiting s.requests.length hop
    requests := s.requests ++ [⟨target, onSelf, .sent, none⟩] }

def goto (s : Sys σ) (phase : Phase) : Sys σ := { s with phase := phase }

def setStage (s : Sys σ) (i : ℕ) (stage : Stage) : Sys σ :=
  { s with requests := s.requests.modify i fun r => { r with stage := stage } }

/-- What comes before the loop. `isOpen` is what the circuit breaker says. -/
def start (caller : Caller) (isOpen : PeerAddress → Bool) (s : Sys σ) : Sys σ :=
  match caller with
  | .sendClientRequest clusterPeers =>
    match clusterPeers.entries with
    | [] => s.goto (failed 0 (text "no peers known for this cluster"))
    | first :: rest =>
      s.goto (.heading (((first :: rest).find? fun p => !isOpen p.2).getD first).1 0)
  | .proposeOrForward v =>
    if (s.cluster.node v).role = .kLeader then s.send v true 0 else s.goto .hinting

/-- The head of the loop, up to the call of `SendRequest`. -/
def head (caller : Caller) (s : Sys σ) (target : NodeId) (hop : ℕ) : Sys σ :=
  match caller with
  | .sendClientRequest clusterPeers =>
    if hop ≥ kMaxHops then s.goto (tooManyRedirects target)
    else
      match clusterPeers.find target with
      | none => s.goto (failed target (text "unknown node id " ++ toText target))
      | some _ => s.send target false hop
  | .proposeOrForward v =>
    if hop ≥ kMaxForwardHops then s.goto (tooManyRedirects target)
    else if target = 0 then s.goto (failed 0 (text "no known leader to forward to"))
    else if target = v then
      if (s.cluster.node v).role = .kLeader then s.send v true hop
      else s.goto (failed 0 (text "leader hint pointed back to self while not leader"))
    else
      match (s.cluster.node v).peers.find target with
      | none => s.goto (failed target (text "unknown leader node id " ++ toText target))
      | some _ => s.send target false hop

/-- The rest of the loop, behind an answer. -/
def receive (s : Sys σ) (r : Request) (hop : ℕ) (resp : ClientResponse) : Sys σ :=
  if r.onSelf ∨ resp.success ∨ ¬ resp.notLeader then s.goto (.returned resp)
  else if resp.leaderHint = 0 ∨ resp.leaderHint = r.target then s.goto (.returned resp)
  else s.goto (.heading resp.leaderHint (hop + 1))

/-- The `catch` of the loop. -/
def caught (caller : Caller) (isOpen : PeerAddress → Bool) (s : Sys σ) (target : NodeId)
    (hop : ℕ) : Sys σ :=
  match caller with
  | .sendClientRequest clusterPeers =>
    match clusterPeers.entries.find? fun p => p.1 ≠ target && !isOpen p.2 with
    | none => s.goto (unreachable target)
    | some retry => s.goto (.heading retry.1 (hop + 1))
  | .proposeOrForward _ => s.goto (unreachable target)

/-- `Propose` for a request, up to its wait. -/
def propose (cb : Callbacks σ) (command : Bytes) (s : Sys σ) (i : ℕ) (r : Request) :
    Option (Sys σ) :=
  (s.cluster.step? cb (.propose r.target command)).map fun cluster =>
    let n := s.cluster.node r.target
    let s := { s with cluster := cluster }
    match n.refusal command with
    | .error _ => s.setStage i .gone
    | .ok (some error) =>
      if error.getD [] = [] then s.setStage i .unconfirmed
      else s.setStage i (.answered ⟨false, 0, false, n.id, error.getD []⟩)
    | .ok none =>
      let appended : ClusterModel.Proposal := ⟨r.target, command, n.state.currentTerm,
        (n.log.append n.state.currentTerm command).2, true, none⟩
      { s with requests := s.requests.modify i fun r => { r with
          stage := if (n.propose cb command).2.isOk then .waiting else .gone
          appended := some appended } }

/-- `Propose` has the mutex again. -/
def finish (s : Sys σ) (i : ℕ) (r : Request) (p : ClusterModel.Proposal) : Sys σ :=
  let n := s.cluster.node r.target
  if n.proposeResult p.index then
    s.setStage i (.answered ⟨n.proposeError p.index = [], p.index, false, n.id,
      n.proposeError p.index⟩)
  else s.setStage i .unconfirmed

end Sys

inductive Event (σ : Type)
  /-- What the group does, also for other calls. -/
  | cluster (e : ClusterModel.Event σ)
  | start (isOpen : PeerAddress → Bool)
  | readHint
  | head
  | receive
  /-- `SendRequest` throws: the connection, the request or the answer is lost, or late. -/
  | caught (isOpen : PeerAddress → Bool)
  | deliver (i : ℕ)
  | propose (i : ℕ)
  | finish (i : ℕ)
  | readRole (i : ℕ)
  | answer (i : ℕ)

/-- A node that stops takes its handlers with it, and a call that runs on it. -/
def stopped (caller : Caller) (v : NodeId) (s : Sys σ) : Sys σ :=
  { s with
    phase := match caller with
      | .proposeOrForward w => if w = v then .gone else s.phase
      | .sendClientRequest _ => s.phase
    requests := s.requests.map fun r =>
      if r.target = v ∧ r.stage.isRunning then { r with stage := .gone } else r }

def step (cb : Callbacks σ) (caller : Caller) (command : Bytes) (s : Sys σ) :
    Event σ → Option (Sys σ)
  | .cluster e => (s.cluster.step? cb e).map fun cluster =>
    match e with
    | .restart v _ => stopped caller v { s with cluster := cluster }
    | _ => { s with cluster := cluster }
  | .start isOpen => if s.phase = .idle then some (s.start caller isOpen) else none
  | .readHint =>
    match caller, s.phase with
    | .proposeOrForward v, .hinting => some (s.goto (.heading (s.cluster.node v).leaderHint 0))
    | _, _ => none
  | .head =>
    match s.phase with
    | .heading target hop => some (s.head caller target hop)
    | _ => none
  | .receive =>
    match s.phase with
    | .waiting i hop =>
      match s.requests[i]? with
      | some ⟨target, onSelf, .answered resp, appended⟩ =>
        some (s.receive ⟨target, onSelf, .answered resp, appended⟩ hop resp)
      | _ => none
    | _ => none
  | .caught isOpen =>
    match s.phase with
    | .waiting i hop =>
      match s.requests[i]? with
      | some r => if r.onSelf then none else some (s.caught caller isOpen r.target hop)
      | none => none
    | _ => none
  | .deliver i =>
    match s.requests[i]? with
    | some ⟨target, _, .sent, _⟩ =>
      some (if (s.cluster.node target).role = .kLeader then s.setStage i .accepted
        else s.setStage i (.failing true (text "not the leader")))
    | _ => none
  | .propose i =>
    match s.requests[i]? with
    | some ⟨target, onSelf, .accepted, appended⟩ =>
      s.propose cb command i ⟨target, onSelf, .accepted, appended⟩
    | _ => none
  | .finish i =>
    match s.requests[i]? with
    | some ⟨target, onSelf, .waiting, some p⟩ =>
      some (s.finish i ⟨target, onSelf, .waiting, some p⟩ p)
    | _ => none
  | .readRole i =>
    match s.requests[i]? with
    | some ⟨target, _, .unconfirmed, _⟩ =>
      some (s.setStage i (.failing ((s.cluster.node target).role ≠ .kLeader)
        (text "propose failed or timed out")))
    | _ => none
  | .answer i =>
    match s.requests[i]? with
    | some ⟨target, _, .failing notLeader error, _⟩ =>
      some (s.setStage i
        (.answered ⟨false, 0, notLeader, (s.cluster.node target).leaderHint, error⟩))
    | _ => none

/-- The entry of a proposal is in the log of a node that knows it to be committed. -/
def Committed (c : Cluster σ) (p : ClusterModel.Proposal) : Prop :=
  ∃ v, p.index ≤ (c.node v).commitIndex ∧
    (c.whole v)[p.index - 1]? = some ⟨p.index, p.term, p.command⟩

/-- The request with this number has made a node append the entry. -/
def Wrote (s : Sys σ) (i : ℕ) (p : ClusterModel.Proposal) : Prop :=
  ∃ r, s.requests[i]? = some r ∧ r.appended = some p

def AtMostOnce (s : Sys σ) : Prop :=
  ∀ i j p q, Wrote s i p → Wrote s j q → Committed s.cluster p →
    Committed s.cluster q → i = j

/-- A definite failure. -/
def Failure (resp : ClientResponse) : Prop := resp.success = false ∧ resp.notLeader = false

/-- A definite failure is not told of an entry that is committed, unless it is the error that
`apply_callback_` has returned for that entry on the node that has answered. -/
def FailureTold (s : Sys (σ × Record)) : Prop :=
  ∀ resp, s.phase = .returned resp → Failure resp → ∀ i p, Wrote s i p →
    Committed s.cluster p → resp.index = p.index ∧ resp.error ≠ [] ∧
      (p.index, p.command, resp.error) ∈ (s.cluster.node p.node).machine.2

/-- The head of the loop sends the command, and does not end the call. -/
def Sends (caller : Caller) (s : Sys σ) : Prop :=
  ∃ target hop, s.phase = .heading target hop ∧
    (s.head caller target hop).requests ≠ s.requests

/-- The command is sent again only while nothing is appended for it, `Propose` does not append
it for a request that the call has given up, and no node that still leads gives up an entry it
has appended. -/
def Fits (caller : Caller) (command : Bytes) (s : Sys σ) : Event σ → Prop
  | .head => Sends caller s → ∀ r ∈ s.requests, r.appended = none
  | .propose i => ∀ r, s.requests[i]? = some r →
      (s.cluster.node r.target).refusal command = .ok none → ∃ hop, s.phase = .waiting i hop
  | .readRole i => ∀ r, s.requests[i]? = some r → r.appended ≠ none →
      (s.cluster.node r.target).role ≠ .kLeader
  | _ => True

/-- The members change with care, and what is recorded stays when a node starts again. -/
def Guarded (command : Bytes) (s : Sys (σ × Record)) : Event (σ × Record) → Prop
  | .cluster e => Careful s.cluster e ∧ KeepsMachine (fun m m' => m'.2 = m.2) s.cluster e
  | .propose i => ∀ r, s.requests[i]? = some r → Careful s.cluster (.propose r.target command)
  | _ => True

/-! ### The invariant -/

/-- The answer tells an error that is on the record for the index of the request's entry. -/
def Rejected (c : Cluster (σ × Record)) (r : Request) (resp : ClientResponse) : Prop :=
  ∀ p, r.appended = some p → resp.index = p.index ∧ resp.error ≠ [] ∧
    ∃ command, (p.index, command, resp.error) ∈ (c.node p.node).machine.2

/-- What holds of each request of the call. -/
structure RequestInv (c : Cluster (σ × Record)) (r : Request) : Prop where
  early : r.stage = .sent ∨ r.stage = .accepted → r.appended = none
  failing : ∀ error, r.stage = .failing false error → r.appended = none
  answered : ∀ resp, r.stage = .answered resp → Failure resp → Rejected c r resp
  node : ∀ p, r.appended = some p → p.node = r.target

structure Inv (s : Sys (σ × Record)) : Prop where
  onRecord : ∀ v, OnRecord (s.cluster.node v)
  idle : s.phase = .idle → s.requests = []
  hinting : s.phase = .hinting → s.requests = []
  waiting : ∀ i hop, s.phase = .waiting i hop → i + 1 = s.requests.length
  request : ∀ r ∈ s.requests, RequestInv s.cluster r
  /-- Only the last request may have its entry. -/
  last : ∀ i r, s.requests[i]? = some r → r.appended ≠ none → i + 1 = s.requests.length
  returned : ∀ resp, s.phase = .returned resp → Failure resp → ∀ r ∈ s.requests,
    Rejected s.cluster r resp

section

variable {c c' : Cluster (σ × Record)} {r : Request} {resp : ClientResponse}

lemma Rejected.mono (h : Rejected c r resp) (hrecalls : ∀ v, Recalls (c.node v) (c'.node v)) :
    Rejected c' r resp := fun p hp =>
  let ⟨hindex, herror, command, hmem⟩ := h p hp
  ⟨hindex, herror, command, (hrecalls p.node).record _ hmem⟩

lemma RequestInv.mono (h : RequestInv c r) (hrecalls : ∀ v, Recalls (c.node v) (c'.node v)) :
    RequestInv c' r :=
  ⟨h.early, h.failing, fun resp hstage hfailure =>
    (h.answered resp hstage hfailure).mono hrecalls, h.node⟩

end

lemma forall_modify {α : Type} {P : α → Prop} {l : List α} {i : ℕ} {f : α → α}
    (hl : ∀ a ∈ l, P a) (hi : ∀ a, l[i]? = some a → P (f a)) :
    ∀ a ∈ l.modify i f, P a := by
  intro a ha
  obtain ⟨j, hj⟩ := List.getElem?_of_mem ha
  rw [List.getElem?_modify] at hj
  obtain ⟨b, hb, rfl⟩ := Option.map_eq_some_iff.mp hj
  split
  · rename_i heq
    exact hi b (heq ▸ hb)
  · exact hl b (List.mem_of_getElem? hb)

namespace Inv

variable {s s' : Sys (σ × Record)} {cb : Callbacks σ} {caller : Caller} {command : Bytes}

lemma heading (h : Inv s) (target : NodeId) (hop : ℕ) : Inv (s.goto (.heading target hop)) where
  onRecord := h.onRecord
  idle := fun hp => by cases hp
  hinting := fun hp => by cases hp
  waiting := fun i hop hp => by cases hp
  request := h.request
  last := h.last
  returned := fun resp hp => by cases hp

lemma return_ (h : Inv s) {resp : ClientResponse}
    (hresp : Failure resp → ∀ r ∈ s.requests, Rejected s.cluster r resp) :
    Inv (s.goto (.returned resp)) where
  onRecord := h.onRecord
  idle := fun hp => by cases hp
  hinting := fun hp => by cases hp
  waiting := fun i hop hp => by cases hp
  request := h.request
  last := h.last
  returned := fun resp hp => by
    cases hp
    exact hresp

lemma fail (h : Inv s) (target : NodeId) (error : Bytes) : Inv (s.goto (failed target error)) :=
  h.return_ fun hfailure => by cases hfailure.2

lemma send (h : Inv s) (hnone : ∀ r ∈ s.requests, r.appended = none) (target : NodeId)
    (onSelf : Bool) (hop : ℕ) : Inv (s.send target onSelf hop) where
  onRecord := h.onRecord
  idle := fun hp => by cases hp
  hinting := fun hp => by cases hp
  waiting := fun i hop hp => by
    cases hp
    simp [Sys.send]
  request := by
    intro r hr
    rcases List.mem_append.mp hr with hold | hnew
    · exact h.request r hold
    · obtain rfl := List.mem_singleton.mp hnew
      exact ⟨fun _ => rfl, (fun error hstage => by cases hstage),
        (fun resp hstage => by cases hstage), fun p hp => by cases hp⟩
  last := by
    intro i r hr happended
    rcases List.mem_append.mp (List.mem_of_getElem? hr) with hold | hnew
    · exact absurd (hnone r hold) happended
    · obtain rfl := List.mem_singleton.mp hnew
      exact absurd rfl happended
  returned := fun resp hp => by cases hp

lemma setStage (h : Inv s) {i : ℕ} {stage : Stage}
    (hi : ∀ r, s.requests[i]? = some r → RequestInv s.cluster { r with stage := stage }) :
    Inv (s.setStage i stage) where
  onRecord := h.onRecord
  idle := fun hp => by
    have := h.idle hp
    simp [Sys.setStage, this]
  hinting := fun hp => by
    have := h.hinting hp
    simp [Sys.setStage, this]
  waiting := fun j hop hp => by
    rw [h.waiting j hop hp]
    simp [Sys.setStage]
  request := forall_modify h.request hi
  last := by
    intro j r hr happended
    simp only [Sys.setStage, List.getElem?_modify, List.length_modify] at hr ⊢
    obtain ⟨r', hr', rfl⟩ := Option.map_eq_some_iff.mp hr
    refine h.last j r' hr' ?_
    split at happended <;> exact happended
  returned := fun resp hp hfailure => forall_modify (h.returned resp hp hfailure) fun r hr =>
    h.returned resp hp hfailure r (List.mem_of_getElem? hr)

lemma start (h : Inv s) (hidle : s.phase = .idle) (isOpen : PeerAddress → Bool) :
    Inv (s.start caller isOpen) := by
  have hempty := h.idle hidle
  unfold Sys.start
  split
  · split
    · exact h.fail _ _
    · exact h.heading _ _
  · split
    · exact h.send (by simp [hempty]) _ _ _
    · exact {
        onRecord := h.onRecord
        idle := fun hp => by cases hp
        hinting := fun _ => hempty
        waiting := fun i hop hp => by cases hp
        request := h.request
        last := h.last
        returned := fun resp hp => by cases hp }

lemma head (h : Inv s) {target : NodeId} {hop : ℕ}
    (hnone : (s.head caller target hop).requests ≠ s.requests →
      ∀ r ∈ s.requests, r.appended = none) : Inv (s.head caller target hop) := by
  have hgrows : ∀ target onSelf, (s.send target onSelf hop).requests ≠ s.requests := by
    intro target onSelf heq
    simpa [Sys.send] using congrArg List.length heq
  unfold Sys.head at hnone ⊢
  split
  · dsimp only at hnone
    split_ifs at hnone ⊢
    · exact h.fail _ _
    · split at hnone
      · exact h.fail _ _
      · exact h.send (hnone (hgrows _ _)) _ _ _
  · dsimp only at hnone
    split_ifs at hnone ⊢
    · exact h.fail _ _
    · exact h.fail _ _
    · exact h.send (hnone (hgrows _ _)) _ _ _
    · exact h.fail _ _
    · split at hnone
      · exact h.fail _ _
      · exact h.send (hnone (hgrows _ _)) _ _ _

lemma receive (h : Inv s) {i hop : ℕ} {r : Request} {resp : ClientResponse}
    (hphase : s.phase = .waiting i hop) (hr : s.requests[i]? = some r)
    (hstage : r.stage = .answered resp) : Inv (s.receive r hop resp) := by
  have hreturn : Inv (s.goto (.returned resp)) := h.return_ fun hfailure r' hr' => by
    obtain ⟨j, hj⟩ := List.getElem?_of_mem hr'
    intro p hp
    have hlast := h.last j r' hj (by simp [hp])
    have hwaiting := h.waiting i hop hphase
    obtain rfl : j = i := by omega
    rw [hr] at hj
    cases hj
    exact (h.request r hr').answered resp hstage hfailure p hp
  unfold Sys.receive
  split_ifs
  · exact hreturn
  · exact hreturn
  · exact h.heading _ _

lemma caught (h : Inv s) (isOpen : PeerAddress → Bool) (target : NodeId) (hop : ℕ) :
    Inv (s.caught caller isOpen target hop) := by
  unfold Sys.caught
  split
  · split
    · exact h.fail _ _
    · exact h.heading _ _
  · exact h.fail _ _

lemma setCluster (h : Inv s) {cluster : Cluster (σ × Record)}
    (hrecalls : ∀ v, Recalls (s.cluster.node v) (cluster.node v)) :
    Inv { s with cluster := cluster } where
  onRecord := fun v => (hrecalls v).noted (h.onRecord v)
  idle := h.idle
  hinting := h.hinting
  waiting := h.waiting
  request := fun r hr => (h.request r hr).mono hrecalls
  last := h.last
  returned := fun resp hp hfailure r hr => (h.returned resp hp hfailure r hr).mono hrecalls

lemma write (h : Inv s) {i hop : ℕ} (hphase : s.phase = .waiting i hop) {stage : Stage}
    (hstage : stage = .waiting ∨ stage = .gone) {p : ClusterModel.Proposal}
    (hnode : ∀ r, s.requests[i]? = some r → p.node = r.target) :
    Inv { s with
      requests := s.requests.modify i fun r => { r with stage := stage, appended := some p } } where
  onRecord := h.onRecord
  idle := fun hp => by simp [hphase] at hp
  hinting := fun hp => by simp [hphase] at hp
  waiting := fun j hop hp => by
    rw [h.waiting j hop hp]
    simp
  request := forall_modify h.request fun r' hr' => by
    refine ⟨fun hearly => ?_, fun error heq => ?_, fun resp heq => ?_, fun q hq => ?_⟩
    · rcases hstage with rfl | rfl <;> rcases hearly with heq | heq <;> cases heq
    · rcases hstage with rfl | rfl <;> cases heq
    · rcases hstage with rfl | rfl <;> cases heq
    · cases hq
      exact hnode r' hr'
  last := fun j r' hr' happended => by
    simp only [List.getElem?_modify, List.length_modify] at hr' ⊢
    obtain ⟨r₀, hr₀, rfl⟩ := Option.map_eq_some_iff.mp hr'
    by_cases heq : i = j
    · rw [← heq]
      exact h.waiting i hop hphase
    · rw [if_neg heq] at happended
      exact h.last j r₀ hr₀ happended
  returned := fun resp hp => by simp [hphase] at hp

lemma propose (h : Inv s) {i : ℕ} {r : Request}
    (hphase : (s.cluster.node r.target).refusal command = .ok none →
      ∃ hop, s.phase = .waiting i hop)
    (hr : s.requests[i]? = some r) (hstage : r.stage = .accepted)
    (hs : s.propose (recording cb) command i r = some s') : Inv s' := by
  obtain ⟨cluster, hcluster, rfl⟩ := Option.map_eq_some_iff.mp hs
  have hkeeps : KeepsMachine (fun m m' => m'.2 = m.2) s.cluster (.propose r.target command) :=
    trivial
  have hcluster := h.setCluster (Recalls.step hkeeps hcluster)
  have hnone := (h.request r (List.mem_of_getElem? hr)).early (.inr hstage)
  have hset : ∀ stage, (∀ error, stage ≠ .failing false error) →
      Inv (Sys.setStage { s with cluster := cluster } i stage) := fun stage hfailing =>
    hcluster.setStage fun r' hr' => by
      obtain rfl := Option.some.inj (hr.symm.trans hr')
      exact ⟨fun _ => hnone, (fun error heq => absurd heq (hfailing error)),
        (fun resp _ _ p hp => by simp [hnone] at hp), fun p hp => by simp [hnone] at hp⟩
  dsimp only
  split
  · exact hset _ fun error heq => by cases heq
  · split_ifs
    · exact hset _ fun error heq => by cases heq
    · exact hset _ fun error heq => by cases heq
  · rename_i hrefusal
    obtain ⟨hop, hphase⟩ := hphase hrefusal
    refine hcluster.write hphase ?_ fun r' hr' => ?_
    · split
      · exact .inl rfl
      · exact .inr rfl
    · rw [Option.some.inj (hr'.symm.trans hr)]

lemma noted_of_error {n : Node (σ × Record)} (h : OnRecord n) {index : ℕ}
    (herror : n.proposeError index ≠ []) :
    ∃ command, (index, command, n.proposeError index) ∈ n.machine.2 := by
  unfold proposeError at herror ⊢
  cases hfind : n.applyErrors.find index with
  | none =>
    rw [hfind] at herror
    exact absurd rfl herror
  | some error => exact h index error hfind

lemma finish (h : Inv s) {i : ℕ} {r : Request} {p : ClusterModel.Proposal}
    (hr : s.requests[i]? = some r) (happended : r.appended = some p) : Inv (s.finish i r p) := by
  unfold Sys.finish
  dsimp only
  split_ifs
  · refine h.setStage fun r' hr' => ?_
    obtain rfl := Option.some.inj (hr.symm.trans hr')
    have hnode := (h.request r (List.mem_of_getElem? hr)).node
    refine ⟨(fun hearly => by rcases hearly with heq | heq <;> cases heq),
      (fun error heq => by cases heq), (fun resp heq hfailure p' hp' => ?_), hnode⟩
    cases heq
    obtain rfl := Option.some.inj (happended.symm.trans hp')
    have herror : (s.cluster.node r.target).proposeError p.index ≠ [] := by
      simpa using hfailure.1
    refine ⟨rfl, herror, ?_⟩
    rw [hnode p happended]
    exact noted_of_error (h.onRecord r.target) herror
  · exact h.setStage fun r' hr' =>
      ⟨(fun hearly => by rcases hearly with heq | heq <;> cases heq),
        (fun error heq => by cases heq), (fun resp heq => by cases heq),
        (h.request r' (List.mem_of_getElem? hr')).node⟩

lemma stopped (h : Inv s) (caller : Caller) (v : NodeId) : Inv (stopped caller v s) := by
  have hphase : (ClientWrites.stopped caller v s).phase = .gone ∨
      (ClientWrites.stopped caller v s).phase = s.phase := by
    unfold ClientWrites.stopped
    dsimp only
    split
    · split_ifs
      · exact .inl rfl
      · exact .inr rfl
    · exact .inr rfl
  have hmap : ∀ r ∈ (ClientWrites.stopped caller v s).requests, ∃ r' ∈ s.requests,
      (r.appended = r'.appended ∧ r.target = r'.target) ∧ (r.stage = .gone ∨ r = r') := by
    intro r hr
    obtain ⟨r', hr', rfl⟩ := List.mem_map.mp hr
    refine ⟨r', hr', ?_⟩
    split_ifs
    · exact ⟨⟨rfl, rfl⟩, .inl rfl⟩
    · exact ⟨⟨rfl, rfl⟩, .inr rfl⟩
  have hkeep : ∀ {x : Phase}, x ≠ .gone → (ClientWrites.stopped caller v s).phase = x →
      s.phase = x := fun hne hx => by
    rcases hphase with hgone | hsame
    · exact absurd (hx.symm.trans hgone) hne
    · exact hsame.symm.trans hx
  have hlen : (ClientWrites.stopped caller v s).requests.length = s.requests.length :=
    List.length_map ..
  refine ⟨h.onRecord, fun hp => ?_, fun hp => ?_, fun i hop hp => ?_, fun r hr => ?_,
    fun i r hr happ => ?_, fun resp hp hfailure r hr p hp' => ?_⟩
  · exact List.eq_nil_of_length_eq_zero (hlen.trans (by simp [h.idle (hkeep (by simp) hp)]))
  · exact List.eq_nil_of_length_eq_zero (hlen.trans (by simp [h.hinting (hkeep (by simp) hp)]))
  · rw [hlen]
    exact h.waiting i hop (hkeep (by simp) hp)
  · obtain ⟨r', hr', ⟨happended, htarget⟩, hgone | rfl⟩ := hmap r hr
    · refine ⟨fun hearly => by simp [hgone] at hearly, (fun error heq => by simp [hgone] at heq),
        (fun resp heq => by simp [hgone] at heq), fun p hp => ?_⟩
      rw [htarget]
      exact (h.request r' hr').node p (happended ▸ hp)
    · exact h.request r hr'
  · rw [hlen]
    unfold ClientWrites.stopped at hr
    rw [List.getElem?_map] at hr
    obtain ⟨r', hr', rfl⟩ := Option.map_eq_some_iff.mp hr
    refine h.last i r' hr' ?_
    split_ifs at happ <;> exact happ
  · obtain ⟨r', hr', ⟨heq, -⟩, -⟩ := hmap r hr
    exact h.returned resp (hkeep (by simp) hp) hfailure r' hr' p (heq ▸ hp')

/-- **One step** keeps the invariant. -/
theorem step (h : Inv s) {e : Event (σ × Record)} (hfits : Fits caller command s e)
    (hguarded : Guarded command s e)
    (hs : ClientWrites.step (recording cb) caller command s e = some s') : Inv s' := by
  cases e with
  | cluster e =>
    obtain ⟨cluster, hcluster, rfl⟩ := Option.map_eq_some_iff.mp hs
    have hnext := h.setCluster (Recalls.step hguarded.2 hcluster)
    split
    · exact hnext.stopped caller _
    · exact hnext
  | start isOpen =>
    simp only [ClientWrites.step] at hs
    split_ifs at hs with hidle
    cases hs
    exact h.start hidle isOpen
  | readHint =>
    simp only [ClientWrites.step] at hs
    split at hs <;> cases hs
    exact h.heading _ _
  | head =>
    simp only [ClientWrites.step] at hs
    split at hs <;> cases hs
    rename_i target hop hphase
    exact h.head fun hsends => hfits ⟨target, hop, hphase, hsends⟩
  | receive =>
    simp only [ClientWrites.step] at hs
    split at hs
    · rename_i i hop hphase
      split at hs <;> cases hs
      rename_i hr
      exact h.receive hphase hr rfl
    · cases hs
  | caught isOpen =>
    simp only [ClientWrites.step] at hs
    split at hs
    · split at hs
      · split_ifs at hs
        cases hs
        exact h.caught isOpen _ _
      · cases hs
    · cases hs
  | deliver i =>
    simp only [ClientWrites.step] at hs
    split at hs <;> cases hs
    rename_i hr
    have hrequest := h.request _ (List.mem_of_getElem? hr)
    have hnone := hrequest.early (.inl rfl)
    split_ifs
    all_goals
      refine h.setStage fun r' hr' => ?_
      obtain rfl := Option.some.inj (hr.symm.trans hr')
      exact ⟨fun _ => hnone, fun _ _ => hnone, (fun resp heq => by cases heq), hrequest.node⟩
  | propose i =>
    simp only [ClientWrites.step] at hs
    split at hs
    · rename_i hr
      exact h.propose (hfits _ hr) hr rfl hs
    · cases hs
  | finish i =>
    simp only [ClientWrites.step] at hs
    split at hs <;> cases hs
    rename_i hr
    exact h.finish hr rfl
  | readRole i =>
    simp only [ClientWrites.step] at hs
    split at hs <;> cases hs
    rename_i hr
    refine h.setStage fun r' hr' => ?_
    have hrole := hfits r' hr'
    obtain rfl := Option.some.inj (hr.symm.trans hr')
    refine ⟨(fun hearly => by rcases hearly with heq | heq <;> cases heq), (fun error heq => ?_),
      (fun resp heq => by cases heq), (h.request _ (List.mem_of_getElem? hr)).node⟩
    by_contra happended
    simp [hrole happended] at heq
  | answer i =>
    simp only [ClientWrites.step] at hs
    split at hs <;> cases hs
    rename_i hr
    have hrequest := h.request _ (List.mem_of_getElem? hr)
    have hfailing := hrequest.failing
    refine h.setStage fun r' hr' => ?_
    obtain rfl := Option.some.inj (hr.symm.trans hr')
    refine ⟨(fun hearly => by rcases hearly with heq | heq <;> cases heq),
      (fun error heq => by cases heq), (fun resp heq hfailure p hp => ?_), hrequest.node⟩
    cases heq
    have hnone := hfailing _ (congrArg (Stage.failing · _) hfailure.2)
    rw [hnone] at hp
    cases hp

end Inv

/-! ### Runs -/

variable {base : Finset NodeId} {s s' : Sys (σ × Record)} {cb : Callbacks σ} {caller : Caller}
  {command : Bytes} {own : NodeId → PeerAddress} {peers : NodeId → OrdMap NodeId PeerAddress}
  {machine : NodeId → σ}

abbrev Step (cb : Callbacks σ) (caller : Caller) (command : Bytes) :=
  StepOf? (ClientWrites.step cb caller command)

def begin (c₀ : Cluster σ) : Sys σ := ⟨c₀, .idle, []⟩

lemma cluster_step {e : Event (σ × Record)} (hguarded : Guarded command s e)
    (hs : step (recording cb) caller command s e = some s') : s'.cluster = s.cluster ∨
    ∃ e', s.cluster.step? (recording cb) e' = some s'.cluster ∧ Careful s.cluster e' ∧
      KeepsMachine (fun m m' => m'.2 = m.2) s.cluster e' := by
  cases e with
  | cluster e =>
    obtain ⟨cluster, hcluster, rfl⟩ := Option.map_eq_some_iff.mp hs
    refine .inr ⟨e, ?_, hguarded⟩
    split <;> exact hcluster
  | propose i =>
    simp only [step] at hs
    split at hs
    · rename_i hr
      obtain ⟨cluster, hcluster, rfl⟩ := Option.map_eq_some_iff.mp hs
      refine .inr ⟨_, ?_, hguarded _ hr, trivial⟩
      dsimp only
      split
      · exact hcluster
      · split_ifs <;> exact hcluster
      · exact hcluster
    · cases hs
  | start isOpen =>
    simp only [step] at hs
    split_ifs at hs
    cases hs
    refine .inl ?_
    unfold Sys.start
    split <;> split <;> rfl
  | readHint =>
    simp only [step] at hs
    split at hs <;> cases hs
    exact .inl rfl
  | head =>
    simp only [step] at hs
    split at hs <;> cases hs
    refine .inl ?_
    unfold Sys.head
    split
    · split_ifs
      · rfl
      · split <;> rfl
    · split_ifs
      · rfl
      · rfl
      · rfl
      · rfl
      · split <;> rfl
  | receive =>
    simp only [step] at hs
    split at hs
    · split at hs <;> cases hs
      refine .inl ?_
      unfold Sys.receive
      split_ifs <;> rfl
    · cases hs
  | caught isOpen =>
    simp only [step] at hs
    split at hs
    · split at hs
      · split_ifs at hs
        cases hs
        refine .inl ?_
        unfold Sys.caught
        split
        · split <;> rfl
        · rfl
      · cases hs
    · cases hs
  | deliver i =>
    simp only [step] at hs
    split at hs <;> cases hs
    refine .inl ?_
    split_ifs <;> rfl
  | finish i =>
    simp only [step] at hs
    split at hs <;> cases hs
    refine .inl ?_
    unfold Sys.finish
    dsimp only
    split_ifs <;> rfl
  | readRole i =>
    simp only [step] at hs
    split at hs <;> cases hs
    exact .inl rfl
  | answer i =>
    simp only [step] at hs
    split at hs <;> cases hs
    exact .inl rfl

lemma inv_run (hcb : cb.Total) (hpeers : ∀ v ∈ base, (peers v).keys = base.erase v)
    (hrun : Reach (Step (recording cb) caller command)
      (fun s e => Fits caller command s e ∧ Guarded command s e)
      (begin (Cluster.boot base own peers fun v => (machine v, []))) s) :
    Inv s ∧ ∃ a, Tracks base Told a s.cluster := by
  have hinv : Inv s ∧ ∃ a, Tracks base Told a s.cluster ∧ Elections.Inv s.cluster.group := by
    refine hrun.invariant (I := fun s => Inv s ∧ ∃ a, Tracks base Told a s.cluster ∧
      Elections.Inv s.cluster.group) ⟨?_, ?_⟩ ?_
    · refine ⟨fun v i error hi => ?_, fun _ => rfl, fun _ => rfl, (fun i hop hp => by cases hp),
        (fun r hr => by cases hr), (fun i r hr => by cases hr), fun resp hp => by cases hp⟩
      unfold begin Cluster.boot Cluster.init Cluster.node Elections.RaftGroup.init at hi
      dsimp only at hi
      split at hi <;> cases hi
    · exact ⟨_, tracks_boot hpeers (fun v => told_iff.mpr fun i c error hmem => by cases hmem),
        votes_boot hpeers⟩
    · rintro s e s' ⟨hinv, a, htracks, hvotes⟩ ⟨hfits, hguarded⟩ hs
      refine ⟨hinv.step hfits hguarded hs, ?_⟩
      rcases cluster_step hguarded hs with heq | ⟨e', hs', hcareful, hkeeps⟩
      · rw [heq]
        exact ⟨a, htracks, hvotes⟩
      · have htotal : (recording cb).Total := fun m i c => by
          obtain ⟨error, hok⟩ := hcb m.1 i c
          exact ⟨error, by unfold recording; dsimp only; rw [hok]⟩
        obtain ⟨v, a', -, htracks'⟩ := htracks.step hvotes htotal
          (watches_told base hcb) hcareful (fun v m he => by
            subst he
            have hsame : m.2 = (s.cluster.node v).machine.2 := hkeeps
            have htold := (htracks.server v).agrees.machine
            rw [told_iff] at htold ⊢
            rwa [hsame]) hs'
        exact ⟨a', htracks', votes_step hvotes hs'⟩
  exact ⟨hinv.1, hinv.2.imp fun _ h => h.1⟩

/-- **A write takes effect at most once**: in every run of a call beside a group, in which the
command is sent again only while no node has appended it, `Propose` appends it only for the
request that the call waits for, and no leader gives its entry up, one of the entries at most
is ever committed; and a definite failure is the error that `apply_callback_` has returned for
the entry. -/
theorem written_once (hcb : cb.Total) (hpeers : ∀ v ∈ base, (peers v).keys = base.erase v)
    (hrun : Reach (Step (recording cb) caller command)
      (fun s e => Fits caller command s e ∧ Guarded command s e)
      (begin (Cluster.boot base own peers fun v => (machine v, []))) s) :
    AtMostOnce s ∧ FailureTold s := by
  obtain ⟨hinv, a, htracks⟩ := inv_run hcb hpeers hrun
  constructor
  · rintro i j p q ⟨r, hr, hp⟩ ⟨r', hr', hq⟩ - -
    have hi := hinv.last i r hr (by simp [hp])
    have hj := hinv.last j r' hr' (by simp [hq])
    omega
  · rintro resp hphase hfailure i p ⟨r, hr, hp⟩ ⟨v, hle, hget⟩
    obtain ⟨hindex, herror, c, hmem⟩ :=
      hinv.returned resp hphase hfailure r (List.mem_of_getElem? hr) p hp
    -- what was applied at the index of the entry is what is committed there
    obtain ⟨hpos, u, l, e, hl, he, rfl⟩ :=
      told_iff.mp (htracks.server p.node).agrees.machine _ _ _ hmem
    have hsame := hl.getElem?_eq htracks.inv
      ((htracks.server v).agrees.committed.le hle) hpos
    rw [he, hget] at hsame
    obtain rfl := Option.some.inj hsame
    exact ⟨hindex, herror, hmem⟩

/-- The servers of the cluster, as a client knows them. -/
def allThree : OrdMap NodeId PeerAddress := (others 1).insert 1 ⟨[], 0⟩

/-- What the conditions ask, on a concrete state. -/
def fits? (command : Bytes) (s : Sys (σ × Record)) : Event (σ × Record) → Bool
  | .cluster (.restart ..) => false
  | .cluster e => careful? s.cluster e
  | .head => s.requests.all fun r => r.appended.isNone
  | .propose i => (match s.phase with
      | .waiting j _ => decide (j = i)
      | _ => false) && s.requests.all fun r => careful? s.cluster (.propose r.target command)
  | .readRole i => s.requests[i]?.all fun r => decide ((s.cluster.node r.target).role ≠ .kLeader)
  | _ => true

lemma fits_of_check {e : Event (σ × Record)} (h : fits? command s e = true) :
    Fits caller command s e ∧ Guarded command s e := by
  cases e with
  | cluster e =>
    cases e with
    | restart v machine => cases h
    | _ => exact ⟨trivial, careful_of_check h, trivial⟩
  | head =>
    refine ⟨fun _ r hr => ?_, trivial⟩
    exact Option.isNone_iff_eq_none.mp (List.all_eq_true.mp h r hr)
  | propose i =>
    obtain ⟨hphase, hcareful⟩ := (Bool.and_eq_true _ _).mp h
    refine ⟨fun r _ _ => ?_, fun r hr => ?_⟩
    · split at hphase
      · rename_i j hop hwaiting
        obtain rfl := of_decide_eq_true hphase
        exact ⟨hop, hwaiting⟩
      · cases hphase
    · exact careful_of_check (List.all_eq_true.mp hcareful r (List.mem_of_getElem? hr))
  | readRole i =>
    refine ⟨fun r hr _ => ?_, trivial⟩
    simp only [fits?, hr, Option.all_some, decide_eq_true_eq] at h
    exact h
  | _ => exact ⟨trivial, trivial⟩

/-- The first request, to server 1, is lost. Server 2, which is asked next, knows that server 1
leads, and server 1 commits [7] with it; the callback rejects it. -/
def askedAgain : List (Event (Unit × Record)) :=
  [.cluster (.election (.startElection 1)), .cluster (.election (.callVote 1 2)),
    .cluster (.election (.requestVote 0 1000)), .cluster (.election (.voteReply 0 0)),
    .cluster (.replicateToAll 1), .cluster (.replicateTo 1 2), .cluster (.appendEntries 0 1000),
    .cluster (.appendReply 0 0), .start fun _ => false, .head, .caught fun _ => false,
    .head, .deliver 1, .answer 1, .receive, .head, .deliver 2, .propose 2,
    .cluster (.replicateToAll 1), .cluster (.replicateTo 1 2), .cluster (.appendEntries 1 1000),
    .cluster (.appendReply 1 1), .finish 2, .receive]

/-- The third request writes [7], and the call tells why it was rejected. -/
theorem written_once_askedAgain : ∃ s : Sys (Unit × Record),
    s.phase = .returned ⟨false, 1, false, 1, [78, 79]⟩ ∧ s.requests.length = 3 ∧
      (s.cluster.node 1).commitIndex = 1 ∧ (s.requests[2]?.bind Request.appended).isSome ∧
      AtMostOnce s ∧ FailureTold s := by
  obtain ⟨s, hs, hphase, hlen, hcommit, hwrote⟩ := exists_of_any
    (P := fun s : Sys (Unit × Record) => s.phase = .returned ⟨false, 1, false, 1, [78, 79]⟩ ∧
      s.requests.length = 3 ∧ (s.cluster.node 1).commitIndex = 1 ∧
      (s.requests[2]?.bind Request.appended).isSome)
    (x := runIf? (step (recording rejects) (.sendClientRequest allThree) [7])
      (fun s e => fits? [7] s e = true) (begin (trioCluster ((), []))) askedAgain)
    (by decide +kernel)
  have hrun := (reach_runIf? hs).mono fun s e h =>
    @fits_of_check Unit s (.sendClientRequest allThree) [7] e h
  exact ⟨s, hphase, hlen, hcommit, hwrote,
    written_once (fun _ _ _ => ⟨_, rfl⟩) (fun v _ => keys_others v) hrun⟩

/-- Server 1 leads and commits [7] with server 2, and its answer is lost. Server 2, which is
asked next, knows the leader, and server 1 gets [7] again. -/
def askedTwice : List (Event Unit) :=
  [.cluster (.election (.startElection 1)), .cluster (.election (.callVote 1 2)),
    .cluster (.election (.requestVote 0 1000)), .cluster (.election (.voteReply 0 0)),
    .start fun _ => false, .head, .deliver 0, .propose 0,
    .cluster (.replicateToAll 1), .cluster (.replicateTo 1 2), .cluster (.appendEntries 0 1000),
    .cluster (.appendReply 0 0), .finish 0, .caught fun _ => false,
    .head, .deliver 1, .answer 1, .receive, .head, .deliver 2, .propose 2,
    .cluster (.replicateToAll 1), .cluster (.replicateTo 1 2), .cluster (.appendEntries 1 1000),
    .cluster (.appendReply 1 1)]

/-- **One call writes twice**: both entries of the call are committed. -/
theorem written_twice : ¬ ∀ s : Sys Unit,
    Reach (Step noCallbacks (.sendClientRequest allThree) [7]) (fun _ _ => True)
      (begin (trioCluster ())) s → AtMostOnce s := by
  intro hall
  obtain ⟨s, hs, hcommit, hwhole, hfirst, hsecond⟩ : ∃ s,
      runOf? (step noCallbacks (.sendClientRequest allThree) [7]) (begin (trioCluster ()))
        askedTwice = some s ∧ (s.cluster.node 1).commitIndex = 2 ∧
      s.cluster.whole 1 = [⟨1, 1, [7]⟩, ⟨2, 1, [7]⟩] ∧
      ((s.requests[0]?.bind Request.appended).map fun p => (p.index, p.term, p.command)) =
        some (1, 1, [7]) ∧
      ((s.requests[2]?.bind Request.appended).map fun p => (p.index, p.term, p.command)) =
        some (2, 1, [7]) := exists_of_any (by decide)
  have hwrote : ∀ i k, ((s.requests[i]?.bind Request.appended).map fun p =>
      (p.index, p.term, p.command)) = some (k + 1, 1, [7]) → k + 1 ≤ 2 →
      ∃ p, Wrote s i p ∧ Committed s.cluster p := by
    intro i k hp hk
    obtain ⟨p, hp, heq⟩ := Option.map_eq_some_iff.mp hp
    obtain ⟨r, hr, happended⟩ := Option.bind_eq_some_iff.mp hp
    simp only [Prod.mk.injEq] at heq
    refine ⟨p, ⟨r, hr, happended⟩, 1, by omega, ?_⟩
    rw [hwhole, heq.1, heq.2.1, heq.2.2]
    obtain rfl | rfl : k = 0 ∨ k = 1 := by omega
    · rfl
    · rfl
  obtain ⟨p, hp, hpc⟩ := hwrote 0 0 hfirst (by decide)
  obtain ⟨q, hq, hqc⟩ := hwrote 2 1 hsecond (by decide)
  exact absurd (hall s (reach_runOf? hs) 0 2 p q hp hq hpc hqc) (by decide)

end DistDB.ClientWrites
