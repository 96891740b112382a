import DistDB.ClientWrites

/-!
SendClientRequest (`raft/client.cpp`) and its circuit breaker: which peers one call asks.

After a lost connection the call takes the first other peer that is not tripped, and that may be
one it has lost already. So it asks two dead peers by turns until its hops are spent, unless the
first of them is tripped by its failure (`finds_iff`, `hops_wasted`).
-/

namespace DistDB.Failover

open NodeModel Wire
open ClientWrites (kMaxHops)

def kFailureThreshold : ℕ := 5

/-- In milliseconds, as the clock. -/
def kCooldown : ℕ := 30000

structure Health where
  consecutiveFailures : ℕ
  openUntil : ℕ

def Health.new : Health := ⟨0, 0⟩

structure CircuitBreaker where
  health : PeerAddress → Option Health
  /-- How often the clock has been read. -/
  readings : ℕ

namespace CircuitBreaker

-- `clock i` is what the clock shows when it is read for the `i`-th time.
variable (clock : ℕ → ℕ)

def isOpen (b : CircuitBreaker) (address : PeerAddress) : Bool × CircuitBreaker :=
  match b.health address with
  | none => (false, b)
  | some h => (clock b.readings < h.openUntil, { b with readings := b.readings + 1 })

def recordSuccess (b : CircuitBreaker) (address : PeerAddress) : CircuitBreaker :=
  { b with health := Function.update b.health address none }

def recordFailure (b : CircuitBreaker) (address : PeerAddress) : CircuitBreaker :=
  let h := (b.health address).getD .new
  if kFailureThreshold ≤ h.consecutiveFailures + 1 then
    let h := ⟨h.consecutiveFailures + 1, clock b.readings + kCooldown⟩
    { health := Function.update b.health address (some h), readings := b.readings + 1 }
  else
    let h := ⟨h.consecutiveFailures + 1, h.openUntil⟩
    { b with health := Function.update b.health address (some h) }

/-- The first of the peers that is not tripped. -/
def firstClosed : CircuitBreaker → List (NodeId × PeerAddress) →
    Option NodeId × CircuitBreaker
  | b, [] => (none, b)
  | b, peer :: peers =>
    match b.isOpen clock peer.2 with
    | (true, b) => firstClosed b peers
    | (false, b) => (some peer.1, b)

end CircuitBreaker

structure Outcome where
  result : Except Exception ClientResponse
  /-- The peers that were asked, in their order. -/
  targets : List NodeId
  breaker : CircuitBreaker

def Outcome.behind (out : Outcome) (target : NodeId) : Outcome :=
  { out with targets := target :: out.targets }

def failed (target : NodeId) (error : Bytes) : Except Exception ClientResponse :=
  .ok ⟨false, 0, true, target, error⟩

section

-- `answer hop` is what `SendRequest` brings from an address, if it does not throw.
variable (clock : ℕ → ℕ) (answer : ℕ → PeerAddress → Bytes → Option Bytes)
  (peers : OrdMap NodeId PeerAddress) (command : Bytes)

/-- The loop, with the number of hops that are left. -/
def follow : ℕ → NodeId → CircuitBreaker → Outcome
  | 0, target, b => ⟨failed target (text "too many redirects while locating the leader"), [], b⟩
  | hops + 1, target, b =>
    match peers.find target with
    | none => ⟨failed target (text "unknown node id " ++ toText target), [], b⟩
    | some address =>
      match answer (kMaxHops - (hops + 1)) address (encodeClientRequest ⟨command⟩) with
      | none =>
        match (b.recordFailure clock address).firstClosed clock
            (peers.entries.filter fun p => p.1 ≠ target) with
        | (none, b) => ⟨failed target (text "could not reach node " ++ toText target),
            [target], b⟩
        | (some retry, b) => (follow hops retry b).behind target
      | some response =>
        match decodeClientResponse response with
        | .error e => ⟨.error e, [target], b.recordSuccess address⟩
        | .ok resp =>
          if resp.success ∨ ¬ resp.notLeader ∨ resp.leaderHint = 0 ∨
            resp.leaderHint = target then ⟨.ok resp, [target], b.recordSuccess address⟩
          else (follow hops resp.leaderHint (b.recordSuccess address)).behind target

def sendClientRequest (b : CircuitBreaker) : Outcome :=
  match peers.entries with
  | [] => ⟨failed 0 (text "no peers known for this cluster"), [], b⟩
  | first :: rest =>
    let (target, b) := b.firstClosed clock (first :: rest)
    follow clock answer peers command kMaxHops (target.getD first.1) b

end

/-! ### The breaker while no cooldown ends -/

namespace CircuitBreaker

variable (clock : ℕ → ℕ)

/-- What `isOpen` would say. -/
def tripped (b : CircuitBreaker) (address : PeerAddress) : Bool := (b.isOpen clock address).1

def fails (b : CircuitBreaker) (address : PeerAddress) : ℕ :=
  ((b.health address).getD .new).consecutiveFailures

/-- No cooldown ends from here on, neither one that has begun nor one that begins. -/
structure Steady (b : CircuitBreaker) : Prop where
  still : ∀ address h, b.health address = some h → ∀ i, b.readings ≤ i →
    (clock i < h.openUntil ↔ clock b.readings < h.openUntil)
  short : ∀ i j, b.readings ≤ i → i ≤ j → clock j < clock i + kCooldown

/-- The same breaker, with the clock read some times more. -/
structure Same (b b' : CircuitBreaker) : Prop where
  health : b'.health = b.health
  readings : b.readings ≤ b'.readings

variable {clock} {b b' : CircuitBreaker} {address : PeerAddress}

lemma Same.refl (b : CircuitBreaker) : Same b b := ⟨rfl, le_refl _⟩

lemma Same.trans {b'' : CircuitBreaker} (h : Same b b') (h' : Same b' b'') : Same b b'' :=
  ⟨h'.health.trans h.health, h.readings.trans h'.readings⟩

lemma Same.steady (h : Same b b') (hb : b.Steady clock) : b'.Steady clock where
  still := fun a health hh i hi => by
    rw [h.health] at hh
    exact (hb.still a health hh i (h.readings.trans hi)).trans
      (hb.still a health hh _ h.readings).symm
  short := fun i j hi hij => hb.short i j (h.readings.trans hi) hij

lemma Same.tripped (h : Same b b') (hb : b.Steady clock) :
    b'.tripped clock = b.tripped clock := by
  funext a
  unfold CircuitBreaker.tripped isOpen
  rw [h.health]
  cases hh : b.health a with
  | none => rfl
  | some health => simp only [hb.still a health hh _ h.readings]

lemma Same.fails (h : Same b b') : b'.fails = b.fails := by
  funext a
  rw [CircuitBreaker.fails, CircuitBreaker.fails, h.health]

variable (clock) in
lemma isOpen_same (b : CircuitBreaker) (address : PeerAddress) :
    Same b (b.isOpen clock address).2 := by
  unfold isOpen
  split
  · exact .refl b
  · exact ⟨rfl, Nat.le_succ _⟩

lemma firstClosed_eq (hb : b.Steady clock) (peers : List (NodeId × PeerAddress)) :
    ∃ b', Same b b' ∧ b.firstClosed clock peers =
      (((peers.filter fun p => !b.tripped clock p.2).head?).map Prod.fst, b') := by
  induction peers generalizing b with
  | nil => exact ⟨b, .refl b, rfl⟩
  | cons peer peers ih =>
    have hsame := isOpen_same clock b peer.2
    rw [firstClosed]
    rcases hopen : b.isOpen clock peer.2 with ⟨_ | _, b₁⟩
    · have htripped : b.tripped clock peer.2 = false := congrArg Prod.fst hopen
      rw [hopen] at hsame
      exact ⟨b₁, hsame, by simp [htripped]⟩
    · have htripped : b.tripped clock peer.2 = true := congrArg Prod.fst hopen
      rw [hopen] at hsame
      obtain ⟨b', hsame', hfirst⟩ := ih (hsame.steady hb)
      rw [hsame.tripped hb] at hfirst
      exact ⟨b', hsame.trans hsame', by simp [hfirst, htripped]⟩

lemma fails_recordFailure (b : CircuitBreaker) (address a : PeerAddress) :
    (b.recordFailure clock address).fails a =
      if a = address then b.fails address + 1 else b.fails a := by
  unfold recordFailure fails
  by_cases hmany : kFailureThreshold ≤ ((b.health address).getD .new).consecutiveFailures + 1
  all_goals
    by_cases ha : a = address
    · simp [hmany, ha]
    · simp [hmany, ha]

lemma steady_recordFailure (hb : b.Steady clock) (address : PeerAddress) :
    (b.recordFailure clock address).Steady clock := by
  unfold recordFailure
  dsimp only
  split_ifs
  · refine ⟨fun a h hh i hi => ?_, fun i j hi => hb.short i j (by simp at hi; omega)⟩
    dsimp only at hh hi ⊢
    by_cases ha : a = address
    · subst ha
      rw [Function.update_self, Option.some.injEq] at hh
      subst hh
      exact iff_of_true (hb.short _ _ le_rfl (by omega)) (hb.short _ _ le_rfl (by omega))
    · rw [Function.update_of_ne ha] at hh
      exact (hb.still a h hh i (by omega)).trans (hb.still a h hh _ (by omega)).symm
  · refine ⟨fun a h hh i hi => ?_, hb.short⟩
    dsimp only at hh hi ⊢
    by_cases ha : a = address
    · subst ha
      rw [Function.update_self, Option.some.injEq] at hh
      subst hh
      cases hhealth : b.health a with
      | none => simp [Health.new]
      | some h => exact hb.still a h hhealth i hi
    · rw [Function.update_of_ne ha] at hh
      exact hb.still a h hh i hi

lemma tripped_recordFailure (hb : b.Steady clock) (address a : PeerAddress) :
    (b.recordFailure clock address).tripped clock a =
      (b.tripped clock a || (decide (a = address) &&
        decide (kFailureThreshold ≤ b.fails address + 1))) := by
  unfold recordFailure tripped isOpen
  by_cases ha : a = address
  · subst ha
    dsimp only
    split_ifs with hmany
    · have hopen : clock (b.readings + 1) < clock b.readings + kCooldown :=
        hb.short _ _ le_rfl (by omega)
      simp [hopen, fails, hmany]
    · cases hhealth : b.health a with
      | none =>
        rw [hhealth] at hmany
        simp [fails, hhealth, Health.new, kFailureThreshold]
      | some h =>
        rw [hhealth] at hmany
        simp only [Option.getD_some] at hmany
        simp [fails, hhealth, hmany]
  · dsimp only
    split_ifs with hmany
    · simp only [Function.update_of_ne ha, ha, decide_false, Bool.false_and, Bool.or_false]
      cases hhealth : b.health a with
      | none => rfl
      | some h => simp only [hb.still a h hhealth (b.readings + 1) (by omega)]
    · simp only [Function.update_of_ne ha, ha, decide_false, Bool.false_and, Bool.or_false]
      cases b.health a <;> rfl

end CircuitBreaker

/-- On the way through these addresses each one but the last is tripped by its failure, or by the
one after it. -/
def Clears (fails : PeerAddress → ℕ) : List PeerAddress → Prop
  | a :: b :: rest =>
    kFailureThreshold ≤ fails a + (if a = b then 2 else 1) ∧
      Clears fails ((b :: rest).filter (· ≠ a))
  | _ => True
termination_by l => l.length
decreasing_by
  have := List.length_filter_le (fun x => decide (x ≠ a)) (b :: rest)
  simp only [List.length_cons] at *
  omega

variable {fails fails' : PeerAddress → ℕ} {a : PeerAddress} {l : List PeerAddress}

lemma clears_nil : Clears fails [] := by
  simp [Clears]

lemma clears_singleton (a : PeerAddress) : Clears fails [a] := by
  simp [Clears]

lemma clears_congr (h : ∀ a ∈ l, fails a = fails' a) : Clears fails l ↔ Clears fails' l := by
  induction hn : l.length using Nat.strong_induction_on generalizing l with
  | _ n ih =>
    rcases l with _ | ⟨a, _ | ⟨b, rest⟩⟩
    · exact iff_of_true clears_nil clears_nil
    · exact iff_of_true (clears_singleton a) (clears_singleton a)
    · have hlen := List.length_filter_le (fun x => decide (x ≠ a)) (b :: rest)
      simp only [List.length_cons] at hn hlen
      rw [Clears, Clears, h a List.mem_cons_self, ih _ (by omega) (fun x hx => ?_) rfl]
      exact h x (List.mem_cons_of_mem a (List.mem_filter.mp hx).1)

lemma clears_once (h : kFailureThreshold ≤ fails a + 1) :
    Clears fails (a :: l) ↔ Clears fails (l.filter (· ≠ a)) := by
  cases l with
  | nil => exact iff_of_true (clears_singleton a) clears_nil
  | cons b l =>
    have hle : kFailureThreshold ≤ fails a + if a = b then 2 else 1 := by
      split_ifs <;> omega
    rw [Clears, and_iff_right hle]

lemma clears_second {a' : PeerAddress} (h : ¬ kFailureThreshold ≤ fails a + 1) :
    Clears fails (a :: a' :: l) ↔ a' = a ∧ kFailureThreshold ≤ fails a + 1 + 1 ∧
      Clears fails (l.filter (· ≠ a)) := by
  rw [Clears]
  by_cases heq : a' = a
  · rw [if_pos heq.symm, and_iff_right heq, List.filter_cons_of_neg (by simp [heq])]
  · rw [if_neg (Ne.symm heq)]
    exact iff_of_false (fun hc => h hc.1) fun hc => heq hc.1

/-! ### Which peers a call asks -/

/-- What the network does in a call: from the reachable addresses comes a success. -/
structure Serves (answer : ℕ → PeerAddress → Bytes → Option Bytes) (command : Bytes)
    (reachable : PeerAddress → Bool) : Prop where
  down : ∀ hop address request, reachable address = false → answer hop address request = none
  accepts : ∀ hop address, reachable address = true → ∃ response resp,
    answer hop address (encodeClientRequest ⟨command⟩) = some response ∧
      decodeClientResponse response = .ok resp ∧ resp.success = true

/-- The peers that are not tripped. -/
def candidates (clock : ℕ → ℕ) (peers : OrdMap NodeId PeerAddress) (b : CircuitBreaker) :
    List (NodeId × PeerAddress) := peers.entries.filter fun p => !b.tripped clock p.2

/-- The addresses of the unreachable ones in front of the first reachable one. -/
def ahead (reachable : PeerAddress → Bool) (ps : List (NodeId × PeerAddress)) :
    List PeerAddress := (ps.takeWhile fun p => !reachable p.2).map Prod.snd

/-- A success from a reachable peer. -/
structure Finds (peers : OrdMap NodeId PeerAddress) (reachable : PeerAddress → Bool)
    (out : Outcome) : Prop where
  success : ∃ resp, out.result = .ok resp ∧ resp.success = true
  live : ∃ id address, out.targets.getLast? = some id ∧ peers.find id = some address ∧
    reachable address = true

/-- No peer is asked again while there is one that was not asked. -/
def NeverRetries (peers : OrdMap NodeId PeerAddress) (out : Outcome) : Prop :=
  ∀ (i : ℕ) id, out.targets[i]? = some id → id ∈ out.targets.take i →
    ∀ p ∈ peers.entries, p.1 ∈ out.targets.take i

/-- A peer is asked again before `r` is asked. -/
def Retries (r : NodeId) (out : Outcome) : Prop :=
  ∃ (i : ℕ) (id : NodeId), out.targets[i]? = some id ∧ id ∈ out.targets.take i ∧
    r ∉ out.targets.take i

lemma Retries.behind {r t : NodeId} {out : Outcome} (h : Retries r out) (ht : r ≠ t) :
    Retries r (out.behind t) := by
  obtain ⟨i, id, hi, hid, hr⟩ := h
  refine ⟨i + 1, id, hi, List.mem_cons_of_mem t hid, ?_⟩
  simp only [Outcome.behind, List.take_succ_cons, List.mem_cons, not_or]
  exact ⟨ht, hr⟩

lemma Finds.behind {peers : OrdMap NodeId PeerAddress} {reachable : PeerAddress → Bool}
    {out : Outcome} (h : Finds peers reachable out) (t : NodeId) :
    Finds peers reachable (out.behind t) where
  success := h.success
  live := by
    obtain ⟨id, address, hlast, h⟩ := h.live
    exact ⟨id, address, by simp [Outcome.behind, List.getLast?_cons, hlast], h⟩

section

variable {clock : ℕ → ℕ} {answer : ℕ → PeerAddress → Bytes → Option Bytes}
  {peers : OrdMap NodeId PeerAddress} {command : Bytes} {reachable : PeerAddress → Bool}
  {b b' : CircuitBreaker} {hops : ℕ} {c d r next : NodeId × PeerAddress}

lemma find_of_candidate (h : c ∈ candidates clock peers b) : peers.find c.1 = some c.2 :=
  peers.mem_entries.mp (List.mem_filter.mp h).1

lemma candidates_pairwise : (candidates clock peers b).Pairwise fun p q => p.1 ≠ q.1 :=
  (peers.asc.imp fun h => ne_of_lt h).sublist List.filter_sublist

lemma candidates_same (h : b.Same b') (hb : b.Steady clock) :
    candidates clock peers b' = candidates clock peers b := by
  rw [candidates, h.tripped hb]
  rfl

variable (peers) in
lemma candidates_recordFailure (hb : b.Steady clock) (address : PeerAddress) :
    candidates clock peers (b.recordFailure clock address) =
      if kFailureThreshold ≤ b.fails address + 1 then
        (candidates clock peers b).filter fun p => p.2 ≠ address
      else candidates clock peers b := by
  simp only [candidates, CircuitBreaker.tripped_recordFailure hb]
  split_ifs with hmany
  · rw [List.filter_filter]
    refine List.filter_congr fun p _ => ?_
    by_cases hp : p.2 = address <;> simp [hp, hmany]
  · simp [hmany]

variable (clock b hops) in
lemma follow_up (hs : Serves answer command reachable) (hfind : peers.find c.1 = some c.2)
    (hc : reachable c.2 = true) :
    Finds peers reachable (follow clock answer peers command (hops + 1) c.1 b) ∧
      (follow clock answer peers command (hops + 1) c.1 b).targets = [c.1] := by
  obtain ⟨response, resp, hresponse, hresp, hsuccess⟩ :=
    hs.accepts (kMaxHops - (hops + 1)) c.2 hc
  have hout : follow clock answer peers command (hops + 1) c.1 b =
      ⟨.ok resp, [c.1], b.recordSuccess c.2⟩ := by
    simp [follow, hfind, hresponse, hresp, hsuccess]
  rw [hout]
  exact ⟨⟨⟨resp, rfl, hsuccess⟩, c.1, c.2, rfl, hfind, hc⟩, rfl⟩

variable (hops next) in
lemma follow_down (hs : Serves answer command reachable) (hb : b.Steady clock)
    (hfind : peers.find c.1 = some c.2) (hc : reachable c.2 = false)
    (hnext : ((candidates clock peers (b.recordFailure clock c.2)).filter
      fun p => p.1 ≠ c.1).head? = some next) :
    ∃ b', (b.recordFailure clock c.2).Same b' ∧
      follow clock answer peers command (hops + 1) c.1 b =
        (follow clock answer peers command hops next.1 b').behind c.1 := by
  obtain ⟨b', hsame, hscan⟩ := CircuitBreaker.firstClosed_eq
    (CircuitBreaker.steady_recordFailure hb c.2) (peers.entries.filter fun p => p.1 ≠ c.1)
  have hhead : ((peers.entries.filter fun p => p.1 ≠ c.1).filter fun p =>
      !(b.recordFailure clock c.2).tripped clock p.2).head? = some next := by
    rw [← hnext, candidates, List.filter_filter, List.filter_filter]
    simp only [Bool.and_comm]
  rw [hhead] at hscan
  refine ⟨b', hsame, ?_⟩
  rw [follow, hfind]
  simp only [hs.down _ c.2 _ hc, hscan, Option.map_some]

variable (clock answer command b hops) in
lemma follow_targets (hfind : peers.find c.1 = some c.2) :
    ∃ rest, (follow clock answer peers command (hops + 1) c.1 b).targets = c.1 :: rest := by
  rw [follow, hfind]
  dsimp only
  split
  · split
    · exact ⟨[], rfl⟩
    · exact ⟨_, rfl⟩
  · split
    · exact ⟨[], rfl⟩
    · split_ifs
      · exact ⟨[], rfl⟩
      · exact ⟨_, rfl⟩

lemma ahead_cons_up {C : List (NodeId × PeerAddress)} (hc : reachable c.2 = true) :
    ahead reachable (c :: C) = [] := by
  simp [ahead, hc]

lemma ahead_cons_down {C : List (NodeId × PeerAddress)} (hc : reachable c.2 = false) :
    ahead reachable (c :: C) = c.2 :: ahead reachable C := by
  simp [ahead, hc]

lemma ahead_filter {address : PeerAddress} (h : reachable address = false)
    (C : List (NodeId × PeerAddress)) :
    ahead reachable (C.filter fun p => p.2 ≠ address) =
      (ahead reachable C).filter (· ≠ address) := by
  induction C with
  | nil => rfl
  | cons p C ih =>
    by_cases hp : p.2 = address
    · rw [List.filter_cons_of_neg (by simpa using hp), ahead_cons_down (hp ▸ h),
        List.filter_cons_of_neg (by simpa using hp), ih]
    · rw [List.filter_cons_of_pos (by simpa using hp)]
      cases hup : reachable p.2 with
      | true => rw [ahead_cons_up hup, ahead_cons_up hup]; rfl
      | false =>
        rw [ahead_cons_down hup, ahead_cons_down hup,
          List.filter_cons_of_pos (by simpa using hp), ih]

/-- The call succeeds, and asks each of these peers once at most. -/
structure Goes (peers : OrdMap NodeId PeerAddress) (reachable : PeerAddress → Bool)
    (C : List (NodeId × PeerAddress)) (out : Outcome) : Prop where
  finds : Finds peers reachable out
  once : out.targets.Nodup
  of : ∀ id ∈ out.targets, ∃ p ∈ C, p.1 = id

lemma Goes.behind {C C' : List (NodeId × PeerAddress)} {out : Outcome}
    (h : Goes peers reachable C' out) (hsub : C' ⊆ C) (hc : c ∈ C)
    (hne : ∀ p ∈ C', p.1 ≠ c.1) :
    Goes peers reachable C (out.behind c.1) where
  finds := h.finds.behind c.1
  once := by
    refine List.nodup_cons.mpr ⟨fun hmem => ?_, h.once⟩
    obtain ⟨p, hp, heq⟩ := h.of c.1 hmem
    exact hne p hp heq
  of := fun id hid => by
    rcases List.mem_cons.mp hid with rfl | hid
    · exact ⟨c, hc, rfl⟩
    · obtain ⟨p, hp, heq⟩ := h.of id hid
      exact ⟨p, hsub hp, heq⟩

lemma goes_one {C : List (NodeId × PeerAddress)} {out : Outcome}
    (hfinds : Finds peers reachable out) (htargets : out.targets = [c.1]) (hc : c ∈ C) :
    Goes peers reachable C out where
  finds := hfinds
  once := by simp [htargets]
  of := fun id hid => ⟨c, hc, by simpa [htargets, eq_comm] using hid⟩

/-- The call goes well exactly if `P`, and else asks a peer again before it asks `r`. -/
structure Comes (peers : OrdMap NodeId PeerAddress) (reachable : PeerAddress → Bool) (r : NodeId)
    (C : List (NodeId × PeerAddress)) (P : Prop) (out : Outcome) : Prop where
  goes : P → Goes peers reachable C out
  retries : ¬ P → Retries r out

lemma Comes.behind {C C' : List (NodeId × PeerAddress)} {P : Prop} {out : Outcome} {r : NodeId}
    (h : Comes peers reachable r C' P out) (hsub : C' ⊆ C) (hc : c ∈ C)
    (hne : ∀ p ∈ C', p.1 ≠ c.1) (hr : r ≠ c.1) :
    Comes peers reachable r C P (out.behind c.1) :=
  ⟨fun hP => (h.goes hP).behind hsub hc hne, fun hP => (h.retries hP).behind hr⟩

/-- The unreachable ones. -/
def dead (reachable : PeerAddress → Bool) (C : List (NodeId × PeerAddress)) :
    List (NodeId × PeerAddress) := C.filter fun p => !reachable p.2

lemma dead_cons_down {C : List (NodeId × PeerAddress)} (hc : reachable c.2 = false) :
    (dead reachable (c :: C)).length = (dead reachable C).length + 1 := by
  simp [dead, hc]

lemma dead_filter_le (C : List (NodeId × PeerAddress)) (q : NodeId × PeerAddress → Bool) :
    (dead reachable (C.filter q)).length ≤ (dead reachable C).length :=
  (List.filter_sublist.filter _).length_le

variable (clock answer peers command reachable r) in
/-- What a call with so many hops comes to that starts with the first of its candidates. -/
def Walks (hops : ℕ) : Prop := ∀ (b : CircuitBreaker) (c : NodeId × PeerAddress)
  (C : List (NodeId × PeerAddress)), b.Steady clock → candidates clock peers b = c :: C →
    r ∈ c :: C → (dead reachable (c :: C)).length < hops →
      Comes peers reachable r.1 (c :: C) (Clears b.fails (ahead reachable (c :: C)))
        (follow clock answer peers command hops c.1 b)

lemma comes_of_failure (hs : Serves answer command reachable)
    (ih : Walks clock answer peers command reachable r hops) (hb : b.Steady clock)
    (hfind : peers.find c.1 = some c.2) (hc : reachable c.2 = false)
    {C D : List (NodeId × PeerAddress)}
    (hcand : candidates clock peers (b.recordFailure clock c.2) = D) (hrD : r ∈ D)
    (hsub : D ⊆ C) (hcC : c ∈ C) (hne : ∀ p ∈ D, p.1 ≠ c.1)
    (hfew : (dead reachable D).length < hops) :
    Comes peers reachable r.1 C (Clears (b.recordFailure clock c.2).fails (ahead reachable D))
      (follow clock answer peers command (hops + 1) c.1 b) := by
  have hsteady := CircuitBreaker.steady_recordFailure hb c.2
  have hskip : (D.filter fun p => p.1 ≠ c.1) = D :=
    List.filter_eq_self.mpr fun p hp => by simpa using hne p hp
  obtain ⟨next, E, rfl⟩ := List.exists_cons_of_ne_nil (List.ne_nil_of_mem hrD)
  obtain ⟨b', hsame, hout⟩ := follow_down hops next hs hb hfind hc
    (by rw [hcand, hskip]; rfl)
  have hwalk := ih b' next E (hsame.steady hsteady)
    (by rw [candidates_same hsame hsteady, hcand]) hrD hfew
  rw [hsame.fails] at hwalk
  rw [hout]
  exact hwalk.behind hsub hcC hne (hne r hrD)

lemma comes_tripped (hs : Serves answer command reachable) (hr : reachable r.2 = true)
    (ih : Walks clock answer peers command reachable r hops) (hb : b.Steady clock)
    {C : List (NodeId × PeerAddress)} (hC : candidates clock peers b = c :: C) (hrC : r ∈ C)
    (hfew : (dead reachable (c :: C)).length < hops + 1) (hc : reachable c.2 = false)
    (htrip : kFailureThreshold ≤ b.fails c.2 + 1) :
    Comes peers reachable r.1 (c :: C) (Clears b.fails (ahead reachable (c :: C)))
      (follow clock answer peers command (hops + 1) c.1 b) := by
  have hcand := candidates_recordFailure peers hb c.2
  rw [hC, if_pos htrip, List.filter_cons_of_neg (by simp)] at hcand
  have hdistinct : (c :: C).Pairwise fun p q => p.1 ≠ q.1 := hC ▸ candidates_pairwise
  have hsub : (C.filter fun p => p.2 ≠ c.2) ⊆ C := List.filter_subset_self _
  have hclears : Clears b.fails (ahead reachable (c :: C)) ↔
      Clears (b.recordFailure clock c.2).fails
        (ahead reachable (C.filter fun p => p.2 ≠ c.2)) := by
    rw [ahead_cons_down hc, clears_once htrip, ahead_filter hc]
    refine clears_congr fun a ha => ?_
    rw [CircuitBreaker.fails_recordFailure, if_neg (by simpa using (List.mem_filter.mp ha).2)]
  rw [dead_cons_down hc] at hfew
  rw [hclears]
  refine comes_of_failure hs ih hb (find_of_candidate (hC ▸ List.mem_cons_self)) hc hcand
    (List.mem_filter.mpr ⟨hrC, ?_⟩) (fun p hp => List.mem_cons_of_mem c (hsub hp))
    List.mem_cons_self (fun p hp => ((List.pairwise_cons.mp hdistinct).1 p (hsub hp)).symm)
    ((dead_filter_le C _).trans_lt (by omega))
  simpa using fun heq : r.2 = c.2 => by simp [heq, hc] at hr

variable (hops) in
lemma retries_first (hs : Serves answer command reachable) (hb : b.Steady clock)
    (hfindc : peers.find c.1 = some c.2) (hfindd : peers.find d.1 = some d.2)
    (hd : reachable d.2 = false) (hdc : c.1 ≠ d.1)
    (hnext : (candidates clock peers (b.recordFailure clock d.2)).head? = some c) :
    ∃ rest, (follow clock answer peers command (hops + 2) d.1 b).targets =
      d.1 :: c.1 :: rest := by
  have hfilter : ((candidates clock peers (b.recordFailure clock d.2)).filter
      fun p => p.1 ≠ d.1).head? = some c := by
    obtain ⟨C, hC⟩ := List.head?_eq_some_iff.mp hnext
    rw [hC, List.filter_cons_of_pos (by simpa using hdc)]
    rfl
  obtain ⟨b', -, hout⟩ := follow_down (hops + 1) c hs hb hfindd hd hfilter
  obtain ⟨rest, htargets⟩ := follow_targets clock answer command b' hops hfindc
  exact ⟨rest, by rw [hout]; simp [Outcome.behind, htargets]⟩

lemma comes_second (hs : Serves answer command reachable) (hr : reachable r.2 = true)
    (ih : Walks clock answer peers command reachable r hops) (hb : b.Steady clock)
    {D : List (NodeId × PeerAddress)} (hC : candidates clock peers b = c :: d :: D) (hrD : r ∈ D)
    (hfew : (dead reachable D).length < hops) (hd : reachable d.2 = false) :
    Comes peers reachable r.1 (c :: d :: D)
      (d.2 = c.2 ∧ kFailureThreshold ≤ b.fails c.2 + 1 ∧
        Clears b.fails ((ahead reachable D).filter (· ≠ c.2)))
      ((follow clock answer peers command (hops + 1) d.1 b).behind c.1) := by
  have hfind : ∀ p ∈ c :: d :: D, peers.find p.1 = some p.2 := fun p hp =>
    find_of_candidate (hC ▸ hp)
  have hdistinct : (c :: d :: D).Pairwise fun p q => p.1 ≠ q.1 := hC ▸ candidates_pairwise
  obtain ⟨hcD, hdistinctD⟩ := List.pairwise_cons.mp hdistinct
  obtain ⟨hdD, -⟩ := List.pairwise_cons.mp hdistinctD
  have hfindd := hfind d (by simp)
  have hcand := candidates_recordFailure peers hb d.2
  rw [hC] at hcand
  by_cases htwice : d.2 = c.2 ∧ kFailureThreshold ≤ b.fails c.2 + 1
  · -- Their address is tripped, and both with it.
    obtain ⟨heq, hmany⟩ := htwice
    rw [heq, if_pos hmany, List.filter_cons_of_neg (by simp),
      List.filter_cons_of_neg (by simp [heq]), ← heq] at hcand
    have hsub : (D.filter fun p => p.2 ≠ d.2) ⊆ D := List.filter_subset_self _
    have hclears : Clears (b.recordFailure clock d.2).fails
        (ahead reachable (D.filter fun p => p.2 ≠ d.2)) ↔ d.2 = c.2 ∧
          kFailureThreshold ≤ b.fails c.2 + 1 ∧
            Clears b.fails ((ahead reachable D).filter (· ≠ c.2)) := by
      rw [ahead_filter hd, and_iff_right heq, and_iff_right hmany, ← heq]
      refine clears_congr fun a ha => ?_
      rw [CircuitBreaker.fails_recordFailure, if_neg (by simpa using (List.mem_filter.mp ha).2)]
    rw [← hclears]
    have hcomes := comes_of_failure (C := d :: D) hs ih hb hfindd hd hcand
      (List.mem_filter.mpr ⟨hrD, by simpa using fun heq : r.2 = d.2 => by simp [heq, hd] at hr⟩)
      (fun p hp => List.mem_cons_of_mem d (hsub hp)) List.mem_cons_self
      (fun p hp => (hdD p (hsub hp)).symm) ((dead_filter_le D _).trans_lt (by omega))
    exact hcomes.behind (List.subset_cons_self c _) List.mem_cons_self
      (fun p hp => (hcD p hp).symm) (hcD r (List.mem_cons_of_mem d hrD)).symm
  · -- The first one is asked once more.
    refine ⟨fun h => absurd ⟨h.1, h.2.1⟩ htwice, fun _ => ?_⟩
    have hnext : (candidates clock peers (b.recordFailure clock d.2)).head? = some c := by
      rw [hcand]
      split_ifs with hmany
      · rw [List.filter_cons_of_pos]
        · rfl
        · simpa using fun heq : c.2 = d.2 => htwice ⟨heq.symm, heq ▸ hmany⟩
      · rfl
    obtain ⟨hops, rfl⟩ : ∃ k, hops = k + 1 := ⟨hops - 1, by omega⟩
    obtain ⟨rest, htargets⟩ := retries_first hops hs hb (hfind c List.mem_cons_self)
      hfindd hd (hcD d List.mem_cons_self) hnext
    have hrc := (hcD r (List.mem_cons_of_mem d hrD)).symm
    refine ⟨2, c.1, ?_, ?_, ?_⟩ <;> simp [Outcome.behind, htargets, hrc, (hdD r hrD).symm]

/-- **The walk of a call**, by induction on its hops. A dead peer that its failure trips leaves the
walk to the others, and one that it does not trip is the first candidate again when the second one
fails, unless that trips it. -/
theorem walks (hs : Serves answer command reachable) (hr : reachable r.2 = true) (hops : ℕ) :
    Walks clock answer peers command reachable r hops := by
  induction hops using Nat.strong_induction_on with
  | _ hops ih =>
  intro b c C hb hC hmem hfew
  have hfind : ∀ p ∈ c :: C, peers.find p.1 = some p.2 := fun p hp =>
    find_of_candidate (hC ▸ hp)
  have hdistinct : (c :: C).Pairwise fun p q => p.1 ≠ q.1 := hC ▸ candidates_pairwise
  obtain ⟨hcC, hdistinctC⟩ := List.pairwise_cons.mp hdistinct
  have hne : ∀ {p : NodeId × PeerAddress}, reachable p.2 = false → r ≠ p := fun hp heq => by
    rw [heq, hp] at hr
    cases hr
  obtain ⟨hops, rfl⟩ : ∃ k, hops = k + 1 := ⟨hops - 1, by omega⟩
  cases hc : reachable c.2 with
  | true =>
    obtain ⟨hfinds, htargets⟩ := follow_up clock b hops hs
      (hfind c List.mem_cons_self) hc
    rw [ahead_cons_up hc]
    exact ⟨fun _ => goes_one hfinds htargets List.mem_cons_self, fun h => absurd clears_nil h⟩
  | false =>
  have hrC : r ∈ C := (List.mem_cons.mp hmem).resolve_left (hne hc)
  by_cases htrip : kFailureThreshold ≤ b.fails c.2 + 1
  · exact comes_tripped hs hr (ih hops (by omega)) hb hC hrC hfew hc htrip
  -- `c` stays a candidate, behind which the second one is next.
  have hcand := candidates_recordFailure peers hb c.2
  rw [hC, if_neg htrip] at hcand
  obtain ⟨d, D, rfl⟩ := List.exists_cons_of_ne_nil (List.ne_nil_of_mem hrC)
  obtain ⟨b₁, hsame, hout⟩ := follow_down hops d hs hb
    (hfind c List.mem_cons_self) hc (by
      rw [hcand, List.filter_cons_of_neg (by simp), List.filter_cons_of_pos]
      · rfl
      · simpa using (hcC d List.mem_cons_self).symm)
  have hsteady := CircuitBreaker.steady_recordFailure hb c.2
  rw [← candidates_same hsame hsteady] at hcand
  have hfails : ∀ a, b₁.fails a = if a = c.2 then b.fails c.2 + 1 else b.fails a := fun a => by
    rw [hsame.fails, CircuitBreaker.fails_recordFailure]
  rw [dead_cons_down hc] at hfew
  obtain ⟨hops, rfl⟩ : ∃ k, hops = k + 1 := ⟨hops - 1, by omega⟩
  rw [hout, ahead_cons_down hc]
  cases hd : reachable d.2 with
  | true =>
    obtain ⟨hfinds, htargets⟩ := follow_up clock b₁ hops hs
      (hfind d (by simp)) hd
    rw [ahead_cons_up hd]
    exact ⟨fun _ => (goes_one hfinds htargets List.mem_cons_self).behind
      (List.subset_cons_self c _) List.mem_cons_self (fun p hp => (hcC p hp).symm),
      fun h => absurd (clears_singleton c.2) h⟩
  | false =>
    have hrD : r ∈ D := (List.mem_cons.mp hrC).resolve_left (hne hd)
    rw [dead_cons_down hd] at hfew
    have hcomes := comes_second hs hr (ih hops (by omega)) (hsame.steady hsteady) hcand hrD
      (by omega) hd
    rw [hfails, if_pos rfl] at hcomes
    rw [ahead_cons_down hd, clears_second htrip]
    rwa [← @clears_congr b₁.fails]
    intro a ha
    rw [hfails, if_neg (by simpa using (List.mem_filter.mp ha).2)]

/-! ### Calls -/

/-- **When failover finds a live peer**: while no cooldown ends, with fewer unreachable peers than
hops and a reachable one that is not tripped, a call succeeds without asking a peer twice exactly
if the failures on the way to the first such peer trip what they fail on. -/
theorem finds_iff (hs : Serves answer command reachable) (hb : b.Steady clock)
    (hfew : (peers.entries.filter fun p => !reachable p.2).length < kMaxHops)
    (hlive : ∃ r ∈ peers.entries, reachable r.2 = true ∧ b.tripped clock r.2 = false) :
    Finds peers reachable (sendClientRequest clock answer peers command b) ∧
        NeverRetries peers (sendClientRequest clock answer peers command b) ↔
      Clears b.fails (ahead reachable (candidates clock peers b)) := by
  obtain ⟨r, hr, hup, htripped⟩ := hlive
  have hmem : r ∈ candidates clock peers b := List.mem_filter.mpr ⟨hr, by simp [htripped]⟩
  obtain ⟨c, C, hC⟩ := List.exists_cons_of_ne_nil (List.ne_nil_of_mem hmem)
  obtain ⟨b', hsame, hfirst⟩ := CircuitBreaker.firstClosed_eq hb peers.entries
  have hcall : sendClientRequest clock answer peers command b =
      follow clock answer peers command kMaxHops c.1 b' := by
    obtain ⟨first, rest, hentries⟩ := List.exists_cons_of_ne_nil (List.ne_nil_of_mem hr)
    rw [show (peers.entries.filter fun p => !b.tripped clock p.2) = c :: C from hC] at hfirst
    unfold sendClientRequest
    rw [hentries] at hfirst ⊢
    simp [hfirst]
  have hdead : (dead reachable (c :: C)).length < kMaxHops := by
    rw [← hC]
    exact (List.filter_sublist.filter _).length_le.trans_lt hfew
  have hwalk := walks hs hup kMaxHops b' c C (hsame.steady hb)
    (by rw [candidates_same hsame hb, hC]) (hC ▸ hmem) hdead
  rw [hcall, hC, ← hsame.fails]
  constructor
  · rintro ⟨-, hnever⟩
    by_contra hclears
    obtain ⟨i, id, hi, hid, hnot⟩ := hwalk.retries hclears
    exact hnot (hnever i id hi hid r hr)
  · intro hclears
    have hgoes := hwalk.goes hclears
    refine ⟨hgoes.finds, fun i id hi hid => ?_⟩
    obtain ⟨j, hj⟩ := List.getElem?_of_mem hid
    rw [List.getElem?_take] at hj
    split_ifs at hj with hlt
    obtain ⟨hlen, -⟩ := List.getElem?_eq_some_iff.mp hj
    exact absurd ((List.getElem?_inj hlen hgoes.once).mp (hj.trans hi.symm)) (by omega)

end

/-- Peers 1, 2 and 3 on their ports. -/
def threePeers : OrdMap NodeId PeerAddress :=
  ((OrdMap.empty.insert 1 ⟨[], 1⟩).insert 2 ⟨[], 2⟩).insert 3 ⟨[], 3⟩

/-- A network in which some addresses accept each command. -/
def accepting (reachable : PeerAddress → Bool) (_ : ℕ) (address : PeerAddress) (_ : Bytes) :
    Option Bytes :=
  if reachable address then some (encodeClientResponse ⟨true, 1, false, 3, []⟩) else none

lemma serves_accepting (command : Bytes) (reachable : PeerAddress → Bool) :
    Serves (accepting reachable) command reachable where
  down := fun hop address request h => by simp [accepting, h]
  accepts := fun hop address h =>
    ⟨encodeClientResponse ⟨true, 1, false, 3, []⟩, ⟨true, 1, false, 3, []⟩,
      by simp [accepting, h], by rfl, rfl⟩

/-- Nothing has failed so far. -/
def fresh : CircuitBreaker := ⟨fun _ => none, 0⟩

lemma steady_fresh : fresh.Steady fun _ => 0 where
  still := fun address h hh => by cases hh
  short := fun i j _ _ => by decide

/-- With one dead peer in front, the second one is found. -/
theorem finds_iff_one : Finds threePeers (fun a => a.port != 1) (sendClientRequest (fun _ => 0)
      (accepting fun a => a.port != 1) threePeers [7] fresh) ∧
    NeverRetries threePeers (sendClientRequest (fun _ => 0)
      (accepting fun a => a.port != 1) threePeers [7] fresh) :=
  (finds_iff (serves_accepting [7] _) steady_fresh (by decide)
    ⟨(2, ⟨[], 2⟩), by decide, rfl, rfl⟩).mpr (clears_singleton _)

/-- **All hops go to two dead peers**, and the third one, which lives, is not asked. -/
theorem hops_wasted : ¬ ∀ (clock : ℕ → ℕ)
    (answer : ℕ → PeerAddress → Bytes → Option Bytes) (peers : OrdMap NodeId PeerAddress)
    (command : Bytes) (reachable : PeerAddress → Bool) (b : CircuitBreaker),
    Serves answer command reachable → b.Steady clock →
      (peers.entries.filter fun p => !reachable p.2).length < kMaxHops →
      (∃ r ∈ peers.entries, reachable r.2 = true ∧ b.tripped clock r.2 = false) →
      Finds peers reachable (sendClientRequest clock answer peers command b) := by
  intro h
  obtain ⟨resp, hresult, hsuccess⟩ :=
    (h (fun _ => 0) (accepting fun a => a.port == 3) threePeers [7] (fun a => a.port == 3) fresh
      (serves_accepting [7] _) steady_fresh (by decide)
    ⟨(3, ⟨[], 3⟩), by decide, rfl, rfl⟩).success
  have hwasted : (sendClientRequest (fun _ => 0) (accepting fun a => a.port == 3) threePeers [7]
      fresh).result = failed 1 (text "too many redirects while locating the leader") := by rfl
  rw [hwasted] at hresult
  cases hresult
  cases hsuccess

end DistDB.Failover
