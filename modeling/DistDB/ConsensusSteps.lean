import DistDB.ConsensusInv

/-!
Every step of the agreement keeps its invariant (`Inv.step`), so that it holds in every state
that is reached (`Inv.reach`); and what follows from it: two commits are never at odds
(`committed_total`).
-/

namespace DistDB.Consensus

open TermLog Config

variable {ν ε : Type*}

/-- Logs of leaders and elections of the first state are in the second one too. -/
structure Extends (s s' : St ν ε) : Prop where
  lead : ∀ t, s.lead t <+: s'.lead t
  election : ∀ {t E}, s.election t = some E → s'.election t = some E

lemma Extends.take {s s' : St ν ε} (h : Extends s s') {t k : ℕ} (hk : k ≤ (s.lead t).length) :
    (s'.lead t).take k = (s.lead t).take k := take_eq_of_isPrefix (h.lead t) hk

lemma Extends.termOf [HasTerm ε] {s s' : St ν ε} (h : Extends s s') {t k : ℕ}
    (hk : k ≤ (s.lead t).length) :
    termOf (s'.lead t) k = TermLog.termOf (s.lead t) k := termOf_of_isPrefix (h.lead t) hk

lemma Kept.extend [HasTerm ε] {s s' : St ν ε} (h : Extends s s') {t k hi : ℕ} {l : List ε}
    (hk : k ≤ (s.lead t).length) (hkept : Kept s t k l hi) : Kept s' t k l hi := by
  unfold Kept
  rw [h.take hk]
  rcases hkept with hkept | ⟨t', E, hlt, hle, hE, hlacks⟩
  · exact .inl hkept
  · exact .inr ⟨t', E, hlt, hle, h.election hE, hlacks⟩

lemma Kept.mono {s : St ν ε} {t k hi hi' : ℕ} {l : List ε} (h : Kept s t k l hi)
    (hle : hi ≤ hi') :
    Kept s t k l hi' := by
  rcases h with hkept | ⟨t', E, hlt, hle', hE, hlacks⟩
  · exact .inl hkept
  · exact .inr ⟨t', E, hlt, hle'.trans hle, hE, hlacks⟩

lemma Kept.mono_log {s : St ν ε} {t k hi : ℕ} {l l' : List ε} (h : Kept s t k l hi)
    (hl : l <+: l') :
    Kept s t k l' hi := by
  rcases h with hkept | helected
  · exact .inl (hkept.trans hl)
  · exact .inr helected

/-- Merging a part of a leader's log keeps what was kept, unless that leader lacks it. -/
lemma Kept.merge [DecidableEq ε] {s : St ν ε} {t k hi u : ℕ} {l m : List ε}
    {E : Election ν ε} (h : Kept s t k l hi) (hE : s.election u = some E)
    (hstart : E.log <+: s.lead u) (hu : u ≤ hi) (hm : m <+: s.lead u)
    (hearlier : u < t → m <+: s.lead t) : Kept s t k (merge l m) hi := by
  rcases h with hkept | helected
  · have htotal : ∀ {n}, m <+: s.lead n → (s.lead t).take k <+: s.lead n →
        Kept s t k (TermLog.merge l m) hi := fun hm hp =>
      .inl (prefix_merge_of_total hkept (prefix_total hp hm))
    rcases Nat.lt_trichotomy u t with hlt | rfl | hgt
    · exact htotal (hearlier hlt) (List.take_prefix _ _)
    · exact htotal hm (List.take_prefix _ _)
    · by_cases hhas : (s.lead t).take k <+: E.log
      · exact htotal hm (hhas.trans hstart)
      · exact .inr ⟨u, E, hgt, hu, hE, hhas⟩
  · exact .inr helected

lemma le_update [DecidableEq ν] {s : St ν ε} {v w : ν} {t : ℕ} (h : s.term v ≤ t) :
    s.term w ≤ Function.update s.term v t w := by
  by_cases hw : w = v
  · subst hw; rwa [Function.update_self]
  · rw [Function.update_of_ne hw]

section

variable {s : St ν ε} {c v : ν} {l : List ε} {q : Finset ν} {t : ℕ}
  {E : Election ν ε} {e : ε}

lemma win_self : (s.win c l q).election (s.term c) = some ⟨c, l, q⟩ ∧
    (s.win c l q).lead (s.term c) = l :=
  ⟨Function.update_self _ _ _, Function.update_self _ _ _⟩

lemma win_of_ne (ht : t ≠ s.term c) :
    (s.win c l q).election t = s.election t ∧ (s.win c l q).lead t = s.lead t :=
  ⟨Function.update_of_ne ht _ _, Function.update_of_ne ht _ _⟩

lemma win_cases (hE : (s.win c l q).election t = some E) :
    (t = s.term c ∧ E = ⟨c, l, q⟩) ∨ (t ≠ s.term c ∧ s.election t = some E) := by
  by_cases ht : t = s.term c
  · subst ht
    rw [win_self.1, Option.some.injEq] at hE
    exact .inl ⟨rfl, hE.symm⟩
  · exact .inr ⟨ht, (win_of_ne ht).1 ▸ hE⟩

lemma ne_of_isSome (hnone : s.election (s.term c) = none) (hE : (s.election t).isSome) :
    t ≠ s.term c := by
  rintro rfl
  rw [hnone] at hE
  cases hE

variable [DecidableEq ν]

lemma propose_self : (s.propose c e).lead (s.term c) = s.lead (s.term c) ++ [e] ∧
    (s.propose c e).log c = s.log c ++ [e] :=
  ⟨Function.update_self _ _ _, Function.update_self _ _ _⟩

lemma propose_lead (ht : t ≠ s.term c) : (s.propose c e).lead t = s.lead t :=
  Function.update_of_ne ht _ _

lemma propose_log (hv : v ≠ c) : (s.propose c e).log v = s.log v := Function.update_of_ne hv _ _

lemma propose_extends : Extends s (s.propose c e) := by
  refine ⟨fun t => ?_, id⟩
  by_cases ht : t = s.term c
  · subst ht
    rw [propose_self.1]
    exact List.prefix_append _ _
  · rw [propose_lead ht]

end

variable [HasTerm ε] [DecidableEq ν] [HasChange ε ν] {base : Finset ν} {s : St ν ε}

namespace Inv

lemma init : Inv base (St.init : St ν ε) where
  log_rooted := fun _ => rooted_nil
  log_term := fun _ i => by simp [St.init]
  ballot_term := fun h => h.elim
  ballot_rooted := fun h => h.elim
  ballot_unique := fun h => h.elim
  vote_term := fun h => h.elim
  vote_rooted := fun h => h.elim
  vote_once := fun h => h.elim
  vote_ballot := fun h => h.elim
  elected_ballot := fun h => by cases h
  elected_majority := fun h => by cases h
  elected_votes := fun h => by cases h
  lead_none := fun _ => rfl
  lead_start := fun h => by cases h
  lead_own := fun h => by cases h
  lead_rooted := fun _ => rooted_nil
  leader_log := fun h => by cases h
  ack_term := fun h => h.elim
  ack_kept := fun h => h.elim
  vote_kept := fun h => h.elim
  elected_kept := fun h => by cases h
  commit_index := fun h => h.elim
  commit_majority := fun h => h.elim
  complete := fun h => h.elim
  anchored := fun h => by simp [St.init] at h

lemma bump (h : Inv base s) {v : ν} {t : ℕ} (ht : s.term v ≤ t) : Inv base (s.bump v t) :=
  { h with
    log_term := fun w i => (h.log_term w i).trans (le_update ht)
    ballot_term := fun hb =>
      let ⟨hpos, hle, hlow⟩ := h.ballot_term hb
      ⟨hpos, hle.trans (le_update ht), hlow⟩
    vote_term := fun hv => (h.vote_term hv).trans (le_update ht)
    leader_log := fun {t' E} hE hterm => by
      -- the winner is not bumped past its own term
      have hle := (h.ballot_term (h.elected_ballot hE)).2.1
      refine h.leader_log hE (le_antisymm ?_ hle)
      exact (le_update ht).trans hterm.le
    ack_term := fun ha =>
      let ⟨hle, hrest⟩ := h.ack_term ha
      ⟨hle.trans (le_update ht), hrest⟩
    ack_kept := fun ha => (h.ack_kept ha).mono (le_update ht) }

lemma nominate (h : Inv base s) {v : ν} (hpos : 0 < s.term v)
    (hlow : ∀ i, termOf (s.log v) i < s.term v) (hfresh : ∀ l, ¬ s.ballot v (s.term v) l) :
    Inv base (s.nominate v) :=
  { h with
    ballot_term := fun hb => by
      rcases hb with hb | ⟨rfl, rfl, rfl⟩
      · exact h.ballot_term hb
      · exact ⟨hpos, le_rfl, hlow⟩
    ballot_rooted := fun hb => by
      rcases hb with hb | ⟨rfl, rfl, rfl⟩
      · exact h.ballot_rooted hb
      · exact h.log_rooted _
    ballot_unique := fun hb hb' => by
      rcases hb with hb | ⟨rfl, rfl, rfl⟩
      · rcases hb' with hb' | ⟨rfl, rfl, rfl⟩
        · exact h.ballot_unique hb hb'
        · exact absurd hb (hfresh _)
      · rcases hb' with hb' | ⟨-, -, rfl⟩
        · exact absurd hb' (hfresh _)
        · rfl
    vote_ballot := fun hv =>
      let ⟨l, hb, hup⟩ := h.vote_ballot hv
      ⟨l, .inl hb, hup⟩
    elected_ballot := fun hE => .inl (h.elected_ballot hE) }

lemma grant (h : Inv base s) {v c : ν} {l : List ε} (hballot : s.ballot c (s.term v) l)
    (hlog : UpToDate l (s.log v)) (honce : ∀ d m, s.vote v (s.term v) d m → d = c) :
    Inv base (s.grant v c) :=
  { h with
    vote_term := fun hv => by
      rcases hv with hv | ⟨rfl, rfl, -, -⟩
      · exact h.vote_term hv
      · exact le_rfl
    vote_rooted := fun hv => by
      rcases hv with hv | ⟨-, -, -, rfl⟩
      · exact h.vote_rooted hv
      · exact h.log_rooted v
    vote_once := fun hv hv' => by
      rcases hv with hv | ⟨rfl, rfl, rfl, -⟩
      · rcases hv' with hv' | ⟨rfl, rfl, rfl, -⟩
        · exact h.vote_once hv hv'
        · exact honce _ _ hv
      · rcases hv' with hv' | ⟨-, -, rfl, -⟩
        · exact (honce _ _ hv').symm
        · rfl
    vote_ballot := fun hv => by
      rcases hv with hv | ⟨-, rfl, rfl, rfl⟩
      · exact h.vote_ballot hv
      · exact ⟨l, hballot, hlog⟩
    elected_votes := fun hE hv =>
      let ⟨m, hm⟩ := h.elected_votes hE hv
      ⟨m, .inl hm⟩
    vote_kept := fun hv ha htu => by
      rcases hv with hv | ⟨rfl, rfl, -, rfl⟩
      · exact h.vote_kept hv ha htu
      · exact h.ack_kept ha
    elected_kept := fun hE hv ha htu =>
      let ⟨m, hm, hkept⟩ := h.elected_kept hE hv ha htu
      ⟨m, .inl hm, hkept⟩ }

/-! ### Elections -/

section

variable {c : ν} {q : Finset ν}

lemma win_extends (h : Inv base s) {l : List ε} (hnone : s.election (s.term c) = none) :
    Extends s (s.win c l q) := by
  refine ⟨fun t => ?_, fun {t E} hE => ?_⟩
  · by_cases ht : t = s.term c
    · subst ht
      rw [h.lead_none hnone]
      exact List.nil_prefix
    · rw [(win_of_ne ht).2]
  · rw [(win_of_ne (ne_of_isSome hnone (by rw [hE]; rfl))).1, hE]

lemma win_committed (h : Inv base s) (hnone : s.election (s.term c) = none) {t k n : ℕ}
    {l : List ε} (hc : s.commit t k n) : (s.win c l q).lead t = s.lead t := by
  obtain ⟨E, -, -, hE, -⟩ := h.commit_majority hc
  exact (win_of_ne (ne_of_isSome hnone (by rw [hE]; rfl))).2

lemma win_lead_own (h : Inv base s) {t i : ℕ} {E : Election ν ε}
    (hE : (s.win c (s.log c) q).election t = some E) (hlt : E.log.length < i)
    (hle : i ≤ ((s.win c (s.log c) q).lead t).length) :
    termOf ((s.win c (s.log c) q).lead t) i = t := by
  rcases win_cases hE with ⟨rfl, rfl⟩ | ⟨ht, hE⟩
  · rw [win_self.2] at hle
    exact absurd hle (by simpa using hlt)
  · rw [(win_of_ne ht).2] at hle ⊢
    exact h.lead_own hE hlt hle

lemma win_lead_rooted (h : Inv base s) (hnone : s.election (s.term c) = none) (t : ℕ) :
    Rooted (s.win c (s.log c) q).lead ((s.win c (s.log c) q).lead t) := by
  have hext : Extends s (s.win c (s.log c) q) := h.win_extends hnone
  by_cases ht : t = s.term c
  · subst ht
    rw [win_self.2]
    exact (h.log_rooted c).mono hext.lead
  · rw [(win_of_ne ht).2]
    exact (h.lead_rooted t).mono hext.lead

lemma win_elected_kept (h : Inv base s) (hnone : s.election (s.term c) = none)
    (hvotes : ∀ v ∈ q, ∃ m, s.vote v (s.term c) c m) {u t k : ℕ} {E : Election ν ε}
    {v : ν} (hE : (s.win c (s.log c) q).election u = some E) (hv : v ∈ E.voters)
    (ha : s.ack v t k) (htu : t < u) : ∃ m, s.vote v u E.winner m ∧
    Kept (s.win c (s.log c) q) t k m (u - 1) := by
  have hext : Extends s (s.win c (s.log c) q) := h.win_extends hnone
  have hk := (h.ack_term ha).2.2
  rcases win_cases hE with ⟨rfl, rfl⟩ | ⟨-, hE⟩
  · obtain ⟨m, hm⟩ := hvotes v hv
    refine ⟨m, hm, Kept.extend hext hk ?_⟩
    rcases h.vote_kept hm ha htu with hkept | ⟨t', E', hlt, hle, hE', hlacks⟩
    · exact .inl hkept
    · have := ne_of_isSome hnone (by rw [hE']; rfl : (s.election t').isSome)
      exact .inr ⟨t', E', hlt, by omega, hE', hlacks⟩
  · obtain ⟨m, hm, hkept⟩ := h.elected_kept hE hv ha htu
    exact ⟨m, hm, hkept.extend hext hk⟩

lemma win_anchored (h : Inv base s) (hballot : s.ballot c (s.term c) (s.log c)) {t i : ℕ} {e : ε}
    (he : ((s.win c (s.log c) q).lead t)[i]? = some e) (hchange : (change e).isSome)
    (hterm : term e = t) : ∃ k n, s.commit t k n ∧ n ≤ i ∧ ∀ (j : ℕ) e', k ≤ j →
    j < i →
      ((s.win c (s.log c) q).lead t)[j]? = some e' → change e' = none := by
  by_cases ht : t = s.term c
  · subst ht
    rw [win_self.2] at he
    have := (h.ballot_term hballot).2.2 (i + 1)
    rw [termOf_eq_of_getElem? he] at this
    omega
  · rw [(win_of_ne ht).2] at he ⊢
    exact h.anchored he hchange hterm

lemma win (h : Inv base s) (hballot : s.ballot c (s.term c) (s.log c))
    (hmajority : Majority q (config base (s.log c)))
    (hvotes : ∀ v ∈ q, ∃ m, s.vote v (s.term c) c m)
    (hfresh : ∀ E, s.election (s.term c) = some E → E.winner ≠ c) :
    Inv base (s.win c (s.log c) q) := by
  -- two winners of one term have a voter in common, so they are one
  have hnone : s.election (s.term c) = none := by
    cases hE : s.election (s.term c) with
    | none => rfl
    | some E => exact absurd (h.elected_unique hballot hmajority hvotes hE) (hfresh E hE)
  have hext : Extends s (s.win c (s.log c) q) := h.win_extends hnone
  exact {
    log_rooted := fun v => (h.log_rooted v).mono hext.lead
    log_term := h.log_term
    ballot_term := h.ballot_term
    ballot_rooted := fun hb => (h.ballot_rooted hb).mono hext.lead
    ballot_unique := h.ballot_unique
    vote_term := h.vote_term
    vote_rooted := fun hv => (h.vote_rooted hv).mono hext.lead
    vote_once := h.vote_once
    vote_ballot := h.vote_ballot
    elected_ballot := fun hE => by
      rcases win_cases hE with ⟨rfl, rfl⟩ | ⟨-, hE⟩
      · exact hballot
      · exact h.elected_ballot hE
    elected_majority := fun hE => by
      rcases win_cases hE with ⟨rfl, rfl⟩ | ⟨-, hE⟩
      · exact hmajority
      · exact h.elected_majority hE
    elected_votes := fun hE hv => by
      rcases win_cases hE with ⟨rfl, rfl⟩ | ⟨-, hE⟩
      · exact hvotes _ hv
      · exact h.elected_votes hE hv
    lead_none := fun {t} hE => by
      have ht : t ≠ s.term c := by
        rintro rfl
        rw [win_self.1] at hE
        cases hE
      rw [(win_of_ne ht).2, h.lead_none ((win_of_ne ht).1 ▸ hE)]
    lead_start := fun hE => by
      rcases win_cases hE with ⟨rfl, rfl⟩ | ⟨ht, hE⟩
      · rw [win_self.2]
      · rw [(win_of_ne ht).2]
        exact h.lead_start hE
    lead_own := h.win_lead_own
    lead_rooted := h.win_lead_rooted hnone
    leader_log := fun hE hterm => by
      rcases win_cases hE with ⟨rfl, rfl⟩ | ⟨ht, hE⟩
      · exact win_self.2.symm
      · rw [(win_of_ne ht).2]
        exact h.leader_log hE hterm
    ack_term := fun {v t k} ha => by
      obtain ⟨hle, hsome, hk⟩ := h.ack_term ha
      obtain ⟨E, hE⟩ := Option.isSome_iff_exists.mp hsome
      exact ⟨hle, by rw [hext.election hE]; rfl, hk.trans (hext.lead t).length_le⟩
    ack_kept := fun ha => (h.ack_kept ha).extend hext (h.ack_term ha).2.2
    vote_kept := fun hv ha htu => (h.vote_kept hv ha htu).extend hext (h.ack_term ha).2.2
    elected_kept := h.win_elected_kept hnone hvotes
    commit_index := fun hc => by
      rw [h.win_committed hnone hc]
      exact h.commit_index hc
    commit_majority := fun hc => by
      rw [h.win_committed hnone hc]
      obtain ⟨E, c', q', hE, hrest⟩ := h.commit_majority hc
      exact ⟨E, c', q', hext.election hE, hrest⟩
    complete := fun hc hE htu => by
      rw [h.win_committed hnone hc]
      rcases win_cases hE with ⟨rfl, rfl⟩ | ⟨-, hE⟩
      · exact h.complete_of_votes hballot hmajority hvotes hc htu
      · exact h.complete hc hE htu
    anchored := h.win_anchored hballot }

end

/-! ### Logs -/

section

variable {E : Election ν ε} {e : ε}

lemma propose_log_rooted (h : Inv base s) (hlead : s.election (s.term E.winner) = some E)
    (hterm : term e = s.term E.winner) (v : ν) :
    Rooted (s.propose E.winner e).lead ((s.propose E.winner e).log v) := by
  by_cases hv : v = E.winner
  · subst hv
    rw [propose_self.2]
    refine ((h.log_rooted _).mono propose_extends.lead).concat ?_
    rw [hterm, propose_self.1, h.leader_log hlead rfl]
  · rw [propose_log hv]
    exact (h.log_rooted v).mono propose_extends.lead

lemma propose_lead_rooted (h : Inv base s) (hterm : term e = s.term E.winner) (t : ℕ) :
    Rooted (s.propose E.winner e).lead ((s.propose E.winner e).lead t) := by
  by_cases ht : t = s.term E.winner
  · subst ht
    rw [propose_self.1]
    refine ((h.lead_rooted _).mono propose_extends.lead).concat ?_
    rw [hterm, propose_self.1]
  · rw [propose_lead ht]
    exact (h.lead_rooted t).mono propose_extends.lead

lemma propose_lead_own (h : Inv base s) (hterm : term e = s.term E.winner) {t i : ℕ}
    {E' : Election ν ε} (hE : s.election t = some E') (hlt : E'.log.length < i)
    (hle : i ≤ ((s.propose E.winner e).lead t).length) :
    termOf ((s.propose E.winner e).lead t) i = t := by
  by_cases hi : i ≤ (s.lead t).length
  · rw [propose_extends.termOf hi]
    exact h.lead_own hE hlt hi
  · by_cases ht : t = s.term E.winner
    · subst ht
      rw [propose_self.1] at hle ⊢
      obtain rfl : i = (s.lead (s.term E.winner)).length + 1 := by
        rw [List.length_append, List.length_singleton] at hle
        omega
      rw [termOf_concat, hterm]
    · rw [propose_lead ht] at hle
      exact absurd hle hi

lemma propose_leader_log (h : Inv base s) (hlead : s.election (s.term E.winner) = some E) {t : ℕ}
    {E' : Election ν ε} (hE : s.election t = some E') (ht : s.term E'.winner = t) :
    (s.propose E.winner e).log E'.winner = (s.propose E.winner e).lead t := by
  by_cases hw : E'.winner = E.winner
  · obtain rfl : s.term E.winner = t := hw ▸ ht
    rw [hw, propose_self.2, propose_self.1, h.leader_log hlead rfl]
  · have hne : t ≠ s.term E.winner := by
      rintro rfl
      obtain rfl : E = E' := Option.some.inj (hlead.symm.trans hE)
      exact hw rfl
    rw [propose_log hw, propose_lead hne]
    exact h.leader_log hE ht

lemma propose_anchored (h : Inv base s)
    (hchange : (change e).isSome → ∃ k m, s.commit (s.term E.winner) k m ∧
      ∀ (j : ℕ) e', k ≤ j → (s.lead (s.term E.winner))[j]? = some e' → change e' = none)
    {t i : ℕ} {e' : ε} (he : ((s.propose E.winner e).lead t)[i]? = some e')
    (hc : (change e').isSome) (ht : term e' = t) : ∃ k n, s.commit t k n ∧ n ≤ i ∧
      ∀ (j : ℕ) e'', k ≤ j → j < i →
        ((s.propose E.winner e).lead t)[j]? = some e'' → change e'' = none := by
  have hget : ∀ {t i}, i < (s.lead t).length →
      ((s.propose E.winner e).lead t)[i]? = (s.lead t)[i]? := by
    intro t i hi
    obtain ⟨r, hr⟩ := (propose_extends (s := s) (c := E.winner) (e := e)).lead t
    rw [← hr, List.getElem?_append_left hi]
  by_cases hi : i < (s.lead t).length
  · rw [hget hi] at he
    obtain ⟨k, n, hk, hn, hnone⟩ := h.anchored he hc ht
    exact ⟨k, n, hk, hn, fun j e'' hkj hji hj =>
      hnone j e'' hkj hji ((hget (hji.trans hi)).symm.trans hj)⟩
  · -- the new entry
    by_cases hne : t = s.term E.winner
    · subst hne
      have hlt := (List.getElem?_eq_some_iff.mp he).1
      rw [propose_self.1, List.length_append, List.length_singleton] at hlt
      obtain rfl : i = (s.lead (s.term E.winner)).length := by omega
      rw [propose_self.1, List.getElem?_concat_length, Option.some.injEq] at he
      subst he
      obtain ⟨k, n, hk, hnone⟩ := hchange hc
      exact ⟨k, n, hk, (h.commit_index hk).2.1, fun j e' hkj hji hj =>
        hnone j e' hkj ((hget hji).symm.trans hj)⟩
    · rw [propose_lead hne] at he
      exact absurd (List.getElem?_eq_some_iff.mp he).1 hi

lemma propose (h : Inv base s) {c : ν} (hlead : s.election (s.term c) = some E)
    (hwinner : E.winner = c) (hterm : term e = s.term c)
    (hchange : (change e).isSome → ∃ k m, s.commit (s.term c) k m ∧
      ∀ (j : ℕ) e', k ≤ j → (s.lead (s.term c))[j]? = some e' → change e' = none) :
    Inv base (s.propose c e) := by
  subst hwinner
  have hext : Extends s (s.propose E.winner e) := propose_extends
  exact { h with
    log_rooted := h.propose_log_rooted hlead hterm
    log_term := fun v i => by
      by_cases hv : v = E.winner
      · subst hv
        rw [propose_self.2]
        exact termOf_concat_le (h.log_term _) hterm.le i
      · rw [propose_log hv]
        exact h.log_term v i
    ballot_rooted := fun hb => (h.ballot_rooted hb).mono hext.lead
    vote_rooted := fun hv => (h.vote_rooted hv).mono hext.lead
    lead_none := fun {t} hE => by
      have ht : t ≠ s.term E.winner := by
        rintro rfl
        exact absurd (hlead.symm.trans hE) nofun
      rw [propose_lead ht, h.lead_none hE]
    lead_start := fun hE => (h.lead_start hE).trans (hext.lead _)
    lead_own := h.propose_lead_own hterm
    lead_rooted := h.propose_lead_rooted hterm
    leader_log := h.propose_leader_log hlead
    ack_term := fun ha =>
      let ⟨hle, hsome, hk⟩ := h.ack_term ha
      ⟨hle, hsome, hk.trans (hext.lead _).length_le⟩
    ack_kept := fun {v t k} ha => by
      have hkept := (h.ack_kept ha).extend hext (h.ack_term ha).2.2
      by_cases hv : v = E.winner
      · subst hv
        rw [propose_self.2]
        exact hkept.mono_log (List.prefix_append _ _)
      · rw [propose_log hv]
        exact hkept
    vote_kept := fun hv ha htu => (h.vote_kept hv ha htu).extend hext (h.ack_term ha).2.2
    elected_kept := fun hE hv ha htu =>
      let ⟨m, hm, hkept⟩ := h.elected_kept hE hv ha htu
      ⟨m, hm, hkept.extend hext (h.ack_term ha).2.2⟩
    commit_index := fun hc => by
      obtain ⟨hkn, hn, hk⟩ := h.commit_index hc
      exact ⟨hkn, hn.trans (hext.lead _).length_le, by rw [hext.termOf (hkn.trans hn), hk]⟩
    commit_majority := fun hc => by
      rw [hext.take (h.commit_index hc).2.1]
      exact h.commit_majority hc
    complete := fun hc hE htu => by
      obtain ⟨hkn, hn, -⟩ := h.commit_index hc
      rw [hext.take (hkn.trans hn)]
      exact h.complete hc hE htu
    anchored := h.propose_anchored hchange }

end

/-- A log may become any other one that keeps what was acknowledged, at a node that does not
lead. -/
lemma setLog (h : Inv base s) {v : ν} {l : List ε} (hl : Rooted s.lead l)
    (hterm : ∀ i, termOf l i ≤ s.term v)
    (hleader : ∀ {E}, s.election (s.term v) = some E → E.winner = v → l = s.log v)
    (hack : ∀ {t k}, s.ack v t k → Kept s t k l (s.term v)) : Inv base (s.setLog v l) := by
  have hself : (s.setLog v l).log v = l := Function.update_self _ _ _
  have hother : ∀ {w}, w ≠ v → (s.setLog v l).log w = s.log w := fun hw =>
    Function.update_of_ne hw _ _
  exact { h with
    log_rooted := fun w => by
      by_cases hw : w = v
      · subst hw
        rw [hself]
        exact hl
      · rw [hother hw]
        exact h.log_rooted w
    log_term := fun w i => by
      by_cases hw : w = v
      · subst hw
        rw [hself]
        exact hterm i
      · rw [hother hw]
        exact h.log_term w i
    leader_log := fun {t E} hE ht => by
      by_cases hw : E.winner = v
      · subst hw
        have hterm' : s.term E.winner = t := ht
        subst hterm'
        rw [hself, hleader hE rfl]
        exact h.leader_log hE rfl
      · rw [hother hw]
        exact h.leader_log hE ht
    ack_kept := fun {w t k} ha => by
      by_cases hw : w = v
      · subst hw
        rw [hself]
        exact hack ha
      · rw [hother hw]
        exact h.ack_kept ha }

lemma replace [DecidableEq ε] (h : Inv base s) {v : ν} {E : Election ν ε} {m : List ε}
    (hlead : s.election (s.term v) = some E) (hother : E.winner ≠ v)
    (hm : m <+: s.lead (s.term v)) : Inv base (s.setLog v (merge (s.log v) m)) := by
  refine h.setLog ((h.log_rooted v).merge ((h.lead_rooted _).of_isPrefix hm))
    (termOf_merge_le (h.log_term v) (termOf_le_of_isPrefix (h.lead_term _) hm))
    (fun hE hw => ?_) (fun ha => ?_)
  · rw [hlead, Option.some.injEq] at hE
    exact absurd (hE ▸ hw) hother
  · refine (h.ack_kept ha).merge hlead (h.lead_start hlead) le_rfl hm fun hlt => ?_
    exact absurd (h.ack_term ha).1 (by omega)

/-- What was committed is in the logs of the leaders of that term and of the later ones. -/
lemma prefix_lead (h : Inv base s) {t k n u : ℕ} {E : Election ν ε} (hcommit : s.commit t k n)
    (hE : s.election u = some E) (htu : t ≤ u) : (s.lead t).take k <+: s.lead u := by
  rcases Nat.lt_or_eq_of_le htu with hlt | rfl
  · exact (h.complete hcommit hE hlt).trans (h.lead_start hE)
  · exact List.take_prefix _ _

lemma adopt [DecidableEq ε] (h : Inv base s) {v : ν} {t k n : ℕ} {m : List ε}
    (hcommit : s.commit t k n) (ht : t ≤ s.term v) (hm : m <+: (s.lead t).take k) :
    Inv base (s.setLog v (merge (s.log v) m)) := by
  have hm' : m <+: s.lead t := hm.trans (List.take_prefix _ _)
  refine h.setLog ((h.log_rooted v).merge ((h.lead_rooted _).of_isPrefix hm'))
    (termOf_merge_le (h.log_term v) fun i => (termOf_le_of_isPrefix (h.lead_term _) hm' i).trans ht)
    (fun {E} hE hw => ?_) (fun {t' k'} ha => ?_)
  · subst hw
    have hlog := h.leader_log hE rfl
    exact merge_of_isPrefix (hlog ▸ hm.trans (h.prefix_lead hcommit hE ht))
  · obtain ⟨E, -, -, hE, -⟩ := h.commit_majority hcommit
    obtain ⟨-, hsome, -⟩ := h.ack_term ha
    obtain ⟨E', hE'⟩ := Option.isSome_iff_exists.mp hsome
    exact (h.ack_kept ha).merge hE (h.lead_start hE) ht hm' fun hlt =>
      hm.trans (h.prefix_lead hcommit hE' hlt.le)

lemma hold (h : Inv base s) {v : ν} {k : ℕ} (hlead : (s.election (s.term v)).isSome)
    (hk : k ≤ (s.lead (s.term v)).length) (hlog : (s.lead (s.term v)).take k <+: s.log v) :
    Inv base (s.hold v k) :=
  { h with
    ack_term := fun ha => by
      rcases ha with ha | ⟨rfl, rfl, hj⟩
      · exact h.ack_term ha
      · exact ⟨le_rfl, hlead, hj.trans hk⟩
    ack_kept := fun ha => by
      rcases ha with ha | ⟨rfl, rfl, hj⟩
      · exact h.ack_kept ha
      · exact .inl ((take_prefix_of_le hj).trans hlog)
    vote_kept := fun hv ha htu => by
      rcases ha with ha | ⟨rfl, rfl, -⟩
      · exact h.vote_kept hv ha htu
      · exact absurd (h.vote_term hv) (by omega)
    elected_kept := fun hE hv ha htu => by
      rcases ha with ha | ⟨rfl, rfl, -⟩
      · exact h.elected_kept hE hv ha htu
      · obtain ⟨m, hm⟩ := h.elected_votes hE hv
        exact absurd (h.vote_term hm) (by omega)
    commit_majority := fun hc =>
      let ⟨E, c, q, hE, hq, hacks, hcounted⟩ := h.commit_majority hc
      ⟨E, c, q, hE, hq, fun v hv => .inl (hacks v hv), hcounted⟩ }

lemma decide (h : Inv base s) {t k : ℕ} {E : Election ν ε} {c q : Finset ν}
    (hlead : s.election t = some E) (hk : k ≤ (s.lead t).length) (hterm : termOf (s.lead t) k = t)
    (hacks : ∀ v ∈ q, s.ack v t k) (hmajority : Majority q c)
    (hcounted : Counted base E.winner t (s.lead t) c) : Inv base (s.decide t k) :=
  { h with
    commit_index := fun hc => by
      rcases hc with hc | ⟨rfl, rfl, rfl⟩
      · exact h.commit_index hc
      · exact ⟨hk, le_rfl, hterm⟩
    commit_majority := fun hc => by
      rcases hc with hc | ⟨rfl, rfl, rfl⟩
      · exact h.commit_majority hc
      · refine ⟨E, c, q, hlead, hmajority, hacks, ?_⟩
        show Counted base E.winner _ ((s.lead _).take _) c
        rwa [List.take_length]
    complete := fun hc hE htu => by
      rcases hc with hc | ⟨rfl, rfl, rfl⟩
      · exact h.complete hc hE htu
      · exact h.complete_of_acks hlead hk hterm hacks hmajority hcounted hE htu
    anchored := fun he hc ht =>
      let ⟨k', n, hk', hrest⟩ := h.anchored he hc ht
      ⟨k', n, .inl hk', hrest⟩ }

/-- **Each step keeps the invariant.** -/
theorem step [DecidableEq ε] (h : Inv base s) {s' : St ν ε} (hstep : Step base s s') :
    Inv base s' := by
  cases hstep with
  | bump v t ht => exact h.bump ht
  | nominate v hpos hlow hfresh => exact h.nominate hpos hlow hfresh
  | grant v c l hballot hlog honce => exact h.grant hballot hlog honce
  | win c q hballot hmajority hvotes hfresh => exact h.win hballot hmajority hvotes hfresh
  | propose c E e hlead hwinner hterm hchange => exact h.propose hlead hwinner hterm hchange
  | replace v E m hlead hother hm => exact h.replace hlead hother hm
  | hold v k hlead hk hlog => exact h.hold hlead hk hlog
  | decide t k E c q hlead hk hterm hacks hmajority hcounted =>
    exact h.decide hlead hk hterm hacks hmajority hcounted
  | adopt v t k n m hcommit ht hm => exact h.adopt hcommit ht hm

theorem steps [DecidableEq ε] (h : Inv base s) {s' : St ν ε} (hsteps : Steps base s s') :
    Inv base s' := by
  induction hsteps with
  | refl => exact h
  | tail _ hstep ih => exact ih.step hstep

/-- **Commits agree**: of two of them one continues the other. -/
theorem committed_total (h : Inv base s) {t k n t' k' n' : ℕ} (hc : s.commit t k n)
    (hc' : s.commit t' k' n') :
    (s.lead t).take k <+: (s.lead t').take k' ∨ (s.lead t').take k' <+: (s.lead t).take k := by
  obtain ⟨E, -, -, hE, -⟩ := h.commit_majority hc
  obtain ⟨E', -, -, hE', -⟩ := h.commit_majority hc'
  rcases Nat.le_total t t' with hle | hle
  · exact prefix_total (h.prefix_lead hc hE' hle) (List.take_prefix _ _)
  · exact prefix_total (List.take_prefix _ _) (h.prefix_lead hc' hE hle)

end Inv

end DistDB.Consensus
