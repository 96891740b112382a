import DistDB.Failover

/-!
SendReadRequest (`raft/client.cpp`): whom a read asks before it gives up.

It looks at every peer twice, and asks those that are not tripped the first time and those that are
the second time. What it sees at the second look is news: a peer whose cooldown ends between the
two is asked neither time. A read asks every peer exactly if there is no such peer
(`tries_every_iff`, `cooldown_ends_between`).
-/

namespace DistDB.PeerReads

open NodeModel Wire Checks
open Failover (CircuitBreaker Health)

/-- What a read throws. -/
inductive ReadError
  /-- `could not reach any node in this cluster: ` and the last error. -/
  | couldNotReach (lastError : Bytes)
  /-- The error that the peer reports. -/
  | query (result : Bytes)
  | malformed (e : Exception)

/-- What a peer's response makes of the call. -/
def readResult (response : Bytes) : Except ReadError Bytes :=
  match decodeReadResponse response with
  | .error e => .error (.malformed e)
  | .ok resp => if resp.error then .error (.query resp.result) else .ok resp.result

structure Search where
  breaker : CircuitBreaker
  /-- The addresses that a request went to. -/
  asked : List PeerAddress
  lastError : Bytes

/-- The two passes over the peers: what `pass_wants_tripped` is, and the address. -/
def looks (peers : OrdMap NodeId PeerAddress) : List (Bool × PeerAddress) :=
  [false, true].flatMap fun passWantsTripped =>
    peers.entries.map fun p => (passWantsTripped, p.2)

section

-- The clock shows `clock (2 * k)` at the `k`-th look, and `clock (2 * k + 1)` when a request fails
-- there. `answer k` is what `SendRequest` brings then, or what it throws.
variable (clock : ℕ → ℕ) (answer : ℕ → PeerAddress → Bytes → Except Bytes Bytes)
  (peers : OrdMap NodeId PeerAddress) (query : Bytes)

def tryPeers : ℕ → List (Bool × PeerAddress) → Search → Except ReadError Bytes × Search
  | _, [], s => (.error (.couldNotReach s.lastError), s)
  | k, (passWantsTripped, address) :: rest, s =>
    match s.breaker.isOpen (fun _ => clock (2 * k)) address with
    | (tripped, b) =>
      if tripped ≠ passWantsTripped then tryPeers (k + 1) rest { s with breaker := b }
      else
        match answer k address (encodeReadRequest ⟨query⟩) with
        | .error what =>
          tryPeers (k + 1) rest
            ⟨b.recordFailure (fun _ => clock (2 * k + 1)) address, s.asked ++ [address], what⟩
        | .ok response =>
          (readResult response, ⟨b.recordSuccess address, s.asked ++ [address], s.lastError⟩)

def sendReadRequest (b : CircuitBreaker) : Except ReadError Bytes × Search :=
  tryPeers clock answer query 0 (looks peers) ⟨b, [], text "no peers known for this cluster"⟩

end

/-! ### Looks that pass a peer over -/

/-- What `IsOpen` says of an entry. -/
def trippedAt (h : Option Health) (now : ℕ) : Bool := h.any fun h => now < h.openUntil

/-- As long as the entry of the address stays as it is, none of the looks, of which `k` is the
first, asks it. -/
def PassedOver (clock : ℕ → ℕ) (k : ℕ) (ls : List (Bool × PeerAddress)) (h : Option Health)
    (a : PeerAddress) : Prop :=
  ∀ i wants, ls[i]? = some (wants, a) → trippedAt h (clock (2 * (k + i))) ≠ wants

/-- The cooldown of the address ends between the looks at its peers in the first pass and those in
the second. -/
def Missed (clock : ℕ → ℕ) (peers : OrdMap NodeId PeerAddress) (b : CircuitBreaker)
    (a : PeerAddress) : Prop :=
  ∃ h, b.health a = some h ∧ ∀ i id, peers.entries[i]? = some (id, a) →
    clock (2 * i) < h.openUntil ∧ h.openUntil ≤ clock (2 * (peers.entries.length + i))

section

variable {clock : ℕ → ℕ} {answer : ℕ → PeerAddress → Bytes → Except Bytes Bytes}
  {peers : OrdMap NodeId PeerAddress} {query : Bytes} {b : CircuitBreaker} {k : ℕ}
  {ls : List (Bool × PeerAddress)} {s : Search} {a address : PeerAddress} {wants : Bool}
  {h : Option Health}

lemma isOpen_eq (b : CircuitBreaker) (now : ℕ) (a : PeerAddress) :
    (b.isOpen (fun _ => now) a).1 = trippedAt (b.health a) now ∧
      (b.isOpen (fun _ => now) a).2.health = b.health := by
  refine ⟨?_, (CircuitBreaker.isOpen_same _ b a).health⟩
  unfold CircuitBreaker.isOpen
  cases b.health a <;> rfl

lemma health_recordFailure_of_ne (clock : ℕ → ℕ) (b : CircuitBreaker) (h : a ≠ address) :
    (b.recordFailure clock address).health a = b.health a := by
  unfold CircuitBreaker.recordFailure
  dsimp only
  split_ifs <;> exact Function.update_of_ne h _ _

lemma passedOver_cons : PassedOver clock k ((wants, address) :: ls) h a ↔
    (address = a → trippedAt h (clock (2 * k)) ≠ wants) ∧ PassedOver clock
    (k + 1) ls h a := by
  constructor
  · intro hover
    refine ⟨fun heq => hover 0 wants (by rw [heq]; rfl), fun i wants' hi => ?_⟩
    rw [Nat.add_right_comm, Nat.add_assoc]
    exact hover (i + 1) wants' hi
  · rintro ⟨hhere, hrest⟩ i wants' hi
    cases i with
    | zero =>
      cases hi
      exact hhere rfl
    | succ i =>
      have hlater := hrest i wants' hi
      rwa [Nat.add_right_comm, Nat.add_assoc] at hlater

variable (clock answer query) in
/-- **One look**: the peer is passed over, or does not answer, or ends the search. -/
lemma tryPeers_cons (k : ℕ) (wants : Bool) (address : PeerAddress)
    (ls : List (Bool × PeerAddress)) (s : Search) :
    (∃ b, b.health = s.breaker.health ∧
      trippedAt (s.breaker.health address) (clock (2 * k)) ≠ wants ∧
      tryPeers clock answer query k ((wants, address) :: ls) s =
        tryPeers clock answer query (k + 1) ls { s with breaker := b }) ∨
    (∃ b what, (∀ a, a ≠ address → b.health a = s.breaker.health a) ∧
      trippedAt (s.breaker.health address) (clock (2 * k)) = wants ∧
      answer k address (encodeReadRequest ⟨query⟩) = .error what ∧
      tryPeers clock answer query k ((wants, address) :: ls) s =
        tryPeers clock answer query (k + 1) ls ⟨b, s.asked ++ [address], what⟩) ∨
    ∃ b response, trippedAt (s.breaker.health address) (clock (2 * k)) = wants ∧
      answer k address (encodeReadRequest ⟨query⟩) = .ok response ∧
      tryPeers clock answer query k ((wants, address) :: ls) s =
        (readResult response, ⟨b, s.asked ++ [address], s.lastError⟩) := by
  obtain ⟨hopen, hsame⟩ := isOpen_eq s.breaker (clock (2 * k)) address
  rw [← hopen]
  rw [tryPeers]
  split
  rename_i tripped b heq
  rw [heq] at hsame ⊢
  dsimp only at hsame ⊢
  by_cases hwants : tripped ≠ wants
  · rw [if_pos hwants]
    exact .inl ⟨b, hsame, hwants, rfl⟩
  rw [if_neg hwants]
  rw [not_not] at hwants
  cases hanswer : answer k address (encodeReadRequest ⟨query⟩) with
  | error what =>
    refine .inr (.inl ⟨_, what, fun a ha => ?_, hwants, rfl, rfl⟩)
    rw [health_recordFailure_of_ne _ b ha, hsame]
  | ok response => exact .inr (.inr ⟨_, response, hwants, rfl, rfl⟩)

lemma asked_tryPeers (ha : a ∈ (tryPeers clock answer query k ls s).2.asked) :
    a ∈ s.asked ∨ ¬ PassedOver clock k ls (s.breaker.health a) a := by
  induction ls generalizing k s with
  | nil => exact .inl ha
  | cons look ls ih =>
    obtain ⟨wants, address⟩ := look
    rw [passedOver_cons]
    rcases tryPeers_cons clock answer query k wants address ls s with
      ⟨b, hsame, hskip, heq⟩ | ⟨b, what, hothers, hask, -, heq⟩ | ⟨b,
        response, hask, -, heq⟩
    · rw [heq] at ha
      rcases ih ha with hbefore | hover
      · exact .inl hbefore
      · rw [hsame] at hover
        exact .inr fun h => hover h.2
    all_goals
      by_cases haddress : a = address
      · subst haddress
        exact .inr fun h => h.1 rfl hask
    · rw [heq] at ha
      rcases ih ha with hbefore | hover
      · refine .inl ((List.mem_append.mp hbefore).resolve_right ?_)
        simpa using haddress
      · rw [hothers a haddress] at hover
        exact .inr fun h => hover h.2
    · rw [heq] at ha
      refine .inl ((List.mem_append.mp ha).resolve_right ?_)
      simpa using haddress

/-- **How a search ends**: nobody answered who was asked, and the others were passed over; or one
who was asked did. -/
lemma tryPeers_ends (clock : ℕ → ℕ)
    (answer : ℕ → PeerAddress → Bytes → Except Bytes Bytes) (query : Bytes) (k : ℕ)
    (ls : List (Bool × PeerAddress)) (s : Search) :
    ((∃ what, (tryPeers clock answer query k ls s).1 = .error (.couldNotReach what)) ∧
      ∀ a, (a ∈ (tryPeers clock answer query k ls s).2.asked → a ∈ s.asked ∨
          ∃ j, ¬ Succeeds (answer j a (encodeReadRequest ⟨query⟩))) ∧
        (a ∉ (tryPeers clock answer query k ls s).2.asked →
          a ∉ s.asked ∧ PassedOver clock k ls (s.breaker.health a) a)) ∨
    ∃ j a response, a ∈ ls.map Prod.snd ∧
      a ∈ (tryPeers clock answer query k ls s).2.asked ∧
      answer j a (encodeReadRequest ⟨query⟩) = .ok response ∧
      (tryPeers clock answer query k ls s).1 = readResult response := by
  -- along the peers: each is passed over, fails, or ends the search
  induction ls generalizing k s with
  | nil => exact .inl ⟨⟨_, rfl⟩, fun a =>
    ⟨.inl, fun ha => ⟨ha, fun i wants hi => by cases hi⟩⟩⟩
  | cons look ls ih =>
    obtain ⟨wants, address⟩ := look
    rcases tryPeers_cons clock answer query k wants address ls s with
      ⟨b, hsame, hskip, heq⟩ | ⟨b, what, hothers, hask, hanswer, heq⟩ |
        ⟨b, response, hask, hanswer, heq⟩
    · rw [heq]
      rcases ih (k + 1) { s with breaker := b } with
        ⟨hfail, hall⟩ | ⟨j, a, response, ha, hrest⟩
      · refine .inl ⟨hfail, fun a => ⟨(hall a).1, fun ha => ?_⟩⟩
        obtain ⟨hbefore, hover⟩ := (hall a).2 ha
        rw [hsame] at hover
        exact ⟨hbefore, passedOver_cons.mpr ⟨fun heq => heq ▸ hskip, hover⟩⟩
      · exact .inr ⟨j, a, response, List.mem_cons_of_mem _ ha, hrest⟩
    · rw [heq]
      rcases ih (k + 1) ⟨b, s.asked ++ [address], what⟩ with
        ⟨hfail, hall⟩ | ⟨j, a, response, ha, hrest⟩
      · refine .inl ⟨hfail, fun a => ⟨fun ha => ?_, fun ha => ?_⟩⟩
        · rcases (hall a).1 ha with hasked | hfails
          · rcases List.mem_append.mp hasked with hbefore | hhere
            · exact .inl hbefore
            · rw [List.mem_singleton.mp hhere]
              refine .inr ⟨k, ?_⟩
              rw [hanswer]
              exact succeeds_error what
          · exact .inr hfails
        · obtain ⟨hasked, hover⟩ := (hall a).2 ha
          simp only [List.mem_append, List.mem_singleton, not_or] at hasked
          rw [hothers a hasked.2] at hover
          exact ⟨hasked.1, passedOver_cons.mpr ⟨fun heq => absurd heq.symm hasked.2, hover⟩⟩
      · exact .inr ⟨j, a, response, List.mem_cons_of_mem _ ha, hrest⟩
    · rw [heq]
      exact .inr ⟨k, address, response, List.mem_cons_self, by simp, hanswer, rfl⟩

lemma looks_getElem? {i : ℕ} : (looks peers)[i]? = some (wants, a) ↔
    ∃ j id, peers.entries[j]? = some (id, a) ∧
      (wants = false ∧ i = j ∨ wants = true ∧ i = peers.entries.length + j) := by
  have hlooks : looks peers = (peers.entries.map fun p => (false, p.2)) ++
      (peers.entries.map fun p => (true, p.2)) := by
    simp [looks]
  rw [hlooks]
  constructor
  · intro hi
    rcases lt_or_ge i peers.entries.length with hlt | hge
    · rw [List.getElem?_append_left (by simpa using hlt), List.getElem?_map] at hi
      obtain ⟨⟨id, a'⟩, hp, heq⟩ := Option.map_eq_some_iff.mp hi
      cases heq
      exact ⟨i, id, hp, .inl ⟨rfl, rfl⟩⟩
    · rw [List.getElem?_append_right (by simpa using hge), List.getElem?_map,
        List.length_map] at hi
      obtain ⟨⟨id, a'⟩, hp, heq⟩ := Option.map_eq_some_iff.mp hi
      cases heq
      exact ⟨_, id, hp, .inr ⟨rfl, by omega⟩⟩
  · rintro ⟨j, id, hp, ⟨rfl, rfl⟩ | ⟨rfl, rfl⟩⟩
    · obtain ⟨hlt, -⟩ := List.getElem?_eq_some_iff.mp hp
      rw [List.getElem?_append_left (by simpa using hlt), List.getElem?_map, hp]
      rfl
    · rw [List.getElem?_append_right (by simp), List.getElem?_map, List.length_map,
        Nat.add_sub_cancel_left, hp]
      rfl

lemma mem_looks : a ∈ (looks peers).map Prod.snd ↔ ∃ p ∈ peers.entries, p.2 = a := by
  simp [looks]

lemma passedOver_looks {p : NodeId × PeerAddress} (hp : p ∈ peers.entries) :
    PassedOver clock 0 (looks peers) (b.health p.2) p.2 ↔ Missed clock peers b p.2 := by
  have htrips : ∀ h now, trippedAt (some h) now = true ↔ now < h.openUntil := fun h now => by
    simp [trippedAt]
  constructor
  · intro hover
    obtain ⟨i, hi⟩ := List.mem_iff_getElem?.mp hp
    have hfirst := hover i false (looks_getElem?.mpr ⟨i, p.1, hi, .inl ⟨rfl, rfl⟩⟩)
    cases hhealth : b.health p.2 with
    | none =>
      rw [hhealth] at hfirst
      exact absurd rfl hfirst
    | some h =>
      rw [hhealth] at hover
      refine ⟨h, hhealth, fun j id hj => ⟨?_, ?_⟩⟩
      · have hlook := hover j false (looks_getElem?.mpr ⟨j, id, hj, .inl ⟨rfl, rfl⟩⟩)
        rw [Bool.ne_false_iff, htrips, Nat.zero_add] at hlook
        exact hlook
      · have hlook := hover _ true (looks_getElem?.mpr ⟨j, id, hj, .inr ⟨rfl, rfl⟩⟩)
        rw [Ne, htrips, Nat.zero_add, not_lt] at hlook
        exact hlook
  · rintro ⟨h, hhealth, hmissed⟩ i wants hi
    rw [hhealth, Nat.zero_add]
    obtain ⟨j, id, hj, ⟨rfl, rfl⟩ | ⟨rfl, rfl⟩⟩ := looks_getElem?.mp hi
    · rw [Bool.ne_false_iff, htrips]
      exact (hmissed _ id hj).1
    · rw [Ne, htrips, not_lt]
      exact (hmissed j id hj).2

end

/-! ### What a read owes to its caller -/

/-- The peer would answer, whenever it is asked. -/
def Answers (answer : ℕ → PeerAddress → Bytes → Except Bytes Bytes) (query : Bytes)
    (a : PeerAddress) : Prop :=
  ∀ k, Succeeds (answer k a (encodeReadRequest ⟨query⟩))

/-- A read fails for want of a peer only when it has asked every one, and ends with the answer of
one if there is one that would answer: with a result, unless an answer is an error. -/
structure TriesEvery (answer : ℕ → PeerAddress → Bytes → Except Bytes Bytes)
    (peers : OrdMap NodeId PeerAddress) (query : Bytes) (out : Except ReadError Bytes × Search) :
    Prop where
  error : ∀ what, out.1 = .error (.couldNotReach what) →
    ∀ p ∈ peers.entries, p.2 ∈ out.2.asked
  answered : (∃ p ∈ peers.entries, Answers answer query p.2) → ∃ j, ∃ p ∈ peers.entries,
    ∃ response, answer j p.2 (encodeReadRequest ⟨query⟩) = .ok response ∧
      out.1 = readResult response
  returns : (∃ p ∈ peers.entries, Answers answer query p.2) →
    (∀ j, ∀ p ∈ peers.entries, ∀ response,
      answer j p.2 (encodeReadRequest ⟨query⟩) = .ok response →
        Succeeds (readResult response)) →
    Succeeds out.1

lemma readResult_ne (response what : Bytes) :
    readResult response ≠ .error (.couldNotReach what) := by
  unfold readResult
  split
  · exact nofun
  · split <;> exact nofun

section

variable {clock : ℕ → ℕ} {answer : ℕ → PeerAddress → Bytes → Except Bytes Bytes}
  {peers : OrdMap NodeId PeerAddress} {query : Bytes} {b : CircuitBreaker}

lemma not_missed_of_asked {p : NodeId × PeerAddress} (hp : p ∈ peers.entries)
    (h : p.2 ∈ (sendReadRequest clock answer peers query b).2.asked) :
    ¬ Missed clock peers b p.2 := by
  rw [← passedOver_looks hp]
  exact (asked_tryPeers h).resolve_left (List.not_mem_nil)

variable (clock answer peers query b) in
lemma read_ends :
    ((∃ what, (sendReadRequest clock answer peers query b).1 = .error (.couldNotReach what)) ∧
      ∀ p ∈ peers.entries, ¬ Missed clock peers b p.2 →
        p.2 ∈ (sendReadRequest clock answer peers query b).2.asked ∧
          ¬ Answers answer query p.2) ∨
    ∃ j, ∃ p ∈ peers.entries, ∃ response, ¬ Missed clock peers b p.2 ∧
      answer j p.2 (encodeReadRequest ⟨query⟩) = .ok response ∧
      (sendReadRequest clock answer peers query b).1 = readResult response := by
  rcases tryPeers_ends clock answer query 0 (looks peers)
    ⟨b, [], text "no peers known for this cluster"⟩ with
    ⟨hfail, hall⟩ | ⟨j, a, response, ha, hasked, hanswer, hresult⟩
  · refine .inl ⟨hfail, fun p hp hmissed => ?_⟩
    have hasked : p.2 ∈ (sendReadRequest clock answer peers query b).2.asked := by
      by_contra hnot
      exact hmissed ((passedOver_looks hp).mp ((hall p.2).2 hnot).2)
    obtain ⟨j, hj⟩ := ((hall p.2).1 hasked).resolve_left List.not_mem_nil
    exact ⟨hasked, fun hanswers => hj (hanswers j)⟩
  · obtain ⟨p, hp, rfl⟩ := mem_looks.mp ha
    exact .inr ⟨j, p, hp, response, not_missed_of_asked hp hasked, hanswer, hresult⟩

lemma triesEvery_of_answer {j : ℕ} {p : NodeId × PeerAddress} {response : Bytes}
    (hp : p ∈ peers.entries) (hanswer :
      answer j p.2 (encodeReadRequest ⟨query⟩) = .ok response)
    (hresult : (sendReadRequest clock answer peers query b).1 = readResult response) :
    TriesEvery answer peers query (sendReadRequest clock answer peers query b) where
  error what h := absurd (hresult.symm.trans h) (readResult_ne response what)
  answered _ := ⟨j, p, hp, response, hanswer, hresult⟩
  returns _ hok := hresult ▸ hok j p hp response hanswer

lemma triesEvery_of_none (h : ∀ p ∈ peers.entries, ¬ Missed clock peers b p.2) :
    TriesEvery answer peers query (sendReadRequest clock answer peers query b) := by
  rcases read_ends clock answer peers query b with
    ⟨-, hall⟩ | ⟨j, p, hp, response, -, hanswer, hresult⟩
  · have hsilent : ¬ ∃ p ∈ peers.entries, Answers answer query p.2 := by
      rintro ⟨p, hp, hanswers⟩
      exact (hall p hp (h p hp)).2 hanswers
    exact ⟨fun _ _ p hp => (hall p hp (h p hp)).1, fun hp => absurd hp hsilent,
      fun hp => absurd hp hsilent⟩
  · exact triesEvery_of_answer hp hanswer hresult

/-- A network in which one address gives a result, and the others cannot be reached. -/
def only (a : PeerAddress) (_ : ℕ) (address : PeerAddress) (_ : Bytes) : Except Bytes Bytes :=
  if address = a then .ok (encodeReadResponse ⟨false, []⟩) else .error []

variable (clock peers query b) in
/-- **When a read tries every peer**: whatever the network does, exactly if no peer's cooldown ends
between the looks of the two passes; and in a network where a peer answers always or never, exactly
if no peer's does, or that of some peer that answers does not. -/
theorem tries_every_iff :
    ((∀ answer, TriesEvery answer peers query (sendReadRequest clock answer peers query b)) ↔
      ∀ p ∈ peers.entries, ¬ Missed clock peers b p.2) ∧
    ∀ answer, (∀ a j, Succeeds (answer j a (encodeReadRequest ⟨query⟩)) →
      Answers answer query a) →
      (TriesEvery answer peers query (sendReadRequest clock answer peers query b) ↔
        (∀ p ∈ peers.entries, ¬ Missed clock peers b p.2) ∨
          ∃ p ∈ peers.entries, Answers answer query p.2 ∧ ¬ Missed clock peers b p.2) := by
  have hmissed : ∀ answer, TriesEvery answer peers query
      (sendReadRequest clock answer peers query b) → ∀ p ∈ peers.entries,
      Missed clock peers b p.2 → ∃ j, ∃ p ∈ peers.entries, ∃ response,
        ¬ Missed clock peers b p.2 ∧ answer j p.2
          (encodeReadRequest ⟨query⟩) = .ok response := by
    intro answer htries p hp hmiss
    rcases read_ends clock answer peers query b with
      ⟨⟨what, hwhat⟩, -⟩ | ⟨j, p', hp', response, hnot, hanswer, -⟩
    · exact absurd hmiss (not_missed_of_asked hp (htries.error what hwhat p hp))
    · exact ⟨j, p', hp', response, hnot, hanswer⟩
  refine ⟨⟨fun htries p hp hmiss => ?_, fun h answer => triesEvery_of_none h⟩,
    fun answer hsteady => ⟨fun htries => ?_, ?_⟩⟩
  · -- nobody but the peer that is missed would answer
    obtain ⟨j, p', -, response, hnot, hanswer⟩ := hmissed (only p.2) (htries _) p hp hmiss
    have hother : p'.2 ≠ p.2 := fun heq => hnot (heq ▸ hmiss)
    rw [only, if_neg hother] at hanswer
    cases hanswer
  · by_cases h : ∀ p ∈ peers.entries, ¬ Missed clock peers b p.2
    · exact .inl h
    · push Not at h
      obtain ⟨p, hp, hmiss⟩ := h
      obtain ⟨j, p', hp', response, hnot, hanswer⟩ := hmissed answer htries p hp hmiss
      exact .inr ⟨p', hp', hsteady p'.2 j ⟨response, hanswer⟩, hnot⟩
  · rintro (h | ⟨p, hp, hanswers, hnot⟩)
    · exact triesEvery_of_none h
    · rcases read_ends clock answer peers query b with
        ⟨-, hall⟩ | ⟨j, p', hp', response, -, hanswer, hresult⟩
      · exact absurd hanswers (hall p hp hnot).2
      · exact triesEvery_of_answer hp' hanswer hresult

end

/-- Peers 1 and 2 on their ports. -/
def twoPeers : OrdMap NodeId PeerAddress := (OrdMap.empty.insert 1 ⟨[], 1⟩).insert 2 ⟨[], 2⟩

/-- The first peer has failed five times, and its cooldown lasts for another second. -/
def cooling : CircuitBreaker := ⟨fun a => if a.port = 1 then some ⟨5, 1000⟩ else none, 0⟩

/-- A request to the second peer takes four seconds to fail. -/
def timeout (i : ℕ) : ℕ := if i ≤ 2 then 0 else 4000

/-- While the clock stands still, no cooldown ends. -/
theorem tries_every_iff_still : TriesEvery (only ⟨[], 1⟩) twoPeers [7]
    (sendReadRequest (fun _ => 0) (only ⟨[], 1⟩) twoPeers [7] cooling) := by
  refine ((tries_every_iff (fun _ => 0) twoPeers [7] cooling).2 (only ⟨[], 1⟩)
    fun a j h k => h).mpr (.inl ?_)
  rintro p hp ⟨h, -, hends⟩
  obtain ⟨i, hi⟩ := List.mem_iff_getElem?.mp hp
  obtain ⟨hopen, hclosed⟩ := hends i p.1 hi
  exact absurd (hopen.trans_le hclosed) (lt_irrefl _)

/-- **A cooldown that ends between the passes**: the first peer would answer and is not asked. -/
theorem cooldown_ends_between : ¬ ∀ clock, Monotone clock → ∀ answer peers query b,
    TriesEvery answer peers query (sendReadRequest clock answer peers query b) := by
  intro h
  have hclock : Monotone timeout := by
    intro i j hij
    unfold timeout
    split_ifs <;> omega
  have hout : ∃ b, sendReadRequest timeout (only ⟨[], 1⟩) twoPeers [7] cooling =
      (.error (.couldNotReach []), ⟨b, [⟨[], 2⟩], []⟩) := ⟨_, rfl⟩
  obtain ⟨b, hb⟩ := hout
  have herror := (h timeout hclock (only ⟨[], 1⟩) twoPeers [7] cooling).error []
  rw [hb] at herror
  have hasked : (⟨[], 1⟩ : PeerAddress) ∈ [⟨[], 2⟩] :=
    herror rfl (1, ⟨[], 1⟩) (by decide)
  revert hasked
  decide

end DistDB.PeerReads
