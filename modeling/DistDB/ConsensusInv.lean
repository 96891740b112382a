import DistDB.Consensus

/-!
What holds in every state of the agreement, and the argument for it.

The heart is `complete`: what a leader has committed is in the log of every node elected
later. Both ways to break it are closed by a node that is in the majority of the commit and
in that of the election: a node acknowledges before it votes in a later term, and keeps what
it has acknowledged unless a leader that lacks it was elected in between (`Kept`). The two
majorities overlap because the two configurations are close, and they are close because each
change is anchored in something committed, which is in both logs.
-/

namespace DistDB.Consensus

open TermLog Config

variable {ν ε : Type*} [HasTerm ε]

/-- The part of a leader's log is in the log, or a leader elected later, up to a term, does
not have it. -/
def Kept (s : St ν ε) (t k : ℕ) (l : List ε) (hi : ℕ) : Prop :=
  (s.lead t).take k <+: l ∨
    ∃ t' E, t < t' ∧ t' ≤ hi ∧ s.election t' = some E ∧ ¬ (s.lead t).take k <+: E.log

variable [DecidableEq ν] [HasChange ε ν]

structure Inv (base : Finset ν) (s : St ν ε) : Prop where
  log_rooted : ∀ v, Rooted s.lead (s.log v)
  log_term : ∀ v i, termOf (s.log v) i ≤ s.term v
  ballot_term : ∀ {c t l}, s.ballot c t l → 0 < t ∧ t ≤ s.term c ∧ ∀ i, termOf l i < t
  ballot_rooted : ∀ {c t l}, s.ballot c t l → Rooted s.lead l
  ballot_unique : ∀ {c t l l'}, s.ballot c t l → s.ballot c t l' → l = l'
  vote_term : ∀ {v t c m}, s.vote v t c m → t ≤ s.term v
  vote_rooted : ∀ {v t c m}, s.vote v t c m → Rooted s.lead m
  vote_once : ∀ {v t c c' m m'}, s.vote v t c m → s.vote v t c' m' → c = c'
  vote_ballot : ∀ {v t c m}, s.vote v t c m → ∃ l, s.ballot c t l ∧ UpToDate l m
  elected_ballot : ∀ {t E}, s.election t = some E → s.ballot E.winner t E.log
  elected_majority : ∀ {t E}, s.election t = some E → Majority E.voters (config base E.log)
  elected_votes : ∀ {t E v}, s.election t = some E → v ∈ E.voters →
    ∃ m, s.vote v t E.winner m
  lead_none : ∀ {t}, s.election t = none → s.lead t = []
  lead_start : ∀ {t E}, s.election t = some E → E.log <+: s.lead t
  lead_own : ∀ {t E i}, s.election t = some E → E.log.length < i → i ≤ (s.lead t).length →
    termOf (s.lead t) i = t
  lead_rooted : ∀ t, Rooted s.lead (s.lead t)
  leader_log : ∀ {t E}, s.election t = some E → s.term E.winner = t →
    s.log E.winner = s.lead t
  ack_term : ∀ {v t k}, s.ack v t k → t ≤ s.term v ∧ (s.election t).isSome ∧
    k ≤ (s.lead t).length
  ack_kept : ∀ {v t k}, s.ack v t k → Kept s t k (s.log v) (s.term v)
  vote_kept : ∀ {v u c m t k}, s.vote v u c m → s.ack v t k → t < u → Kept s t k m u
  elected_kept : ∀ {u E v t k}, s.election u = some E → v ∈ E.voters → s.ack v t k →
    t < u → ∃ m, s.vote v u E.winner m ∧ Kept s t k m (u - 1)
  commit_index : ∀ {t k n}, s.commit t k n →
    k ≤ n ∧ n ≤ (s.lead t).length ∧ termOf (s.lead t) k = t
  commit_majority : ∀ {t k n}, s.commit t k n → ∃ E c q, s.election t = some E ∧
    Majority q c ∧ (∀ v ∈ q, s.ack v t k) ∧ Counted base E.winner t ((s.lead t).take n) c
  complete : ∀ {t k n u E}, s.commit t k n → s.election u = some E → t < u →
    (s.lead t).take k <+: E.log
  anchored : ∀ {t : ℕ} {i : ℕ} {e : ε}, (s.lead t)[i]? = some e → (change e).isSome →
    term e = t → ∃ k n, s.commit t k n ∧ n ≤ i ∧
      ∀ (j : ℕ) e', k ≤ j → j < i → (s.lead t)[j]? = some e' → change e' = none

namespace Inv

variable {base : Finset ν} {s : St ν ε}

lemma election_pos (h : Inv base s) {t : ℕ} {E : Election ν ε} (hE : s.election t = some E) :
    0 < t := (h.ballot_term (h.elected_ballot hE)).1

lemma election_of_lead (h : Inv base s) {t : ℕ} (hne : s.lead t ≠ []) :
    ∃ E, s.election t = some E := by
  cases hE : s.election t with
  | none => exact absurd (h.lead_none hE) hne
  | some E => exact ⟨E, rfl⟩

lemma lead_term (h : Inv base s) (t i : ℕ) : termOf (s.lead t) i ≤ t := by
  cases hE : s.election t with
  | none => rw [h.lead_none hE, termOf_of_nil]; exact Nat.zero_le t
  | some E =>
    rcases Nat.lt_or_ge E.log.length i with hlt | hge
    · rcases Nat.lt_or_ge (s.lead t).length i with hout | hin
      · rw [termOf_of_length_lt hout]; exact Nat.zero_le t
      · exact (h.lead_own hE hlt hin).le
    · rw [termOf_of_isPrefix (h.lead_start hE) hge]
      exact ((h.ballot_term (h.elected_ballot hE)).2.2 i).le

lemma start_lt (h : Inv base s) {t i : ℕ} {E : Election ν ε} (hE : s.election t = some E)
    (hi : termOf (s.lead t) i = t) : E.log.length < i := by
  by_contra hle
  rw [termOf_of_isPrefix (h.lead_start hE) (by omega)] at hi
  have := (h.ballot_term (h.elected_ballot hE)).2.2 i
  omega

/-- The leader of a term that occurs in a rooted log: the log has all that it was elected
with. -/
lemma elected_prefix (h : Inv base s) {l : List ε} (hl : Rooted s.lead l) {i : ℕ} (hpos : 0 < i)
    (hi : i ≤ l.length) :
    ∃ E, s.election (termOf l i) = some E ∧ E.log <+: l.take i := by
  have hroot := hl i hpos hi
  have hlen : (l.take i).length = i := by simp [hi]
  obtain ⟨E, hE⟩ := h.election_of_lead (t := termOf l i) (by
    intro hnil
    rw [hnil] at hroot
    have := hroot.length_le
    rw [hlen, List.length_nil] at this
    omega)
  refine ⟨E, hE, List.prefix_of_prefix_length_le (h.lead_start hE) hroot ?_⟩
  have hterm : termOf (s.lead (termOf l i)) i = termOf l i := by
    rw [termOf_of_isPrefix hroot hlen.ge, termOf_take le_rfl]
  rw [hlen]
  exact (h.start_lt hE hterm).le

lemma termOf_pos (h : Inv base s) {l : List ε} (hl : Rooted s.lead l) {i : ℕ} (hpos : 0 < i)
    (hi : i ≤ l.length) : 0 < termOf l i := by
  obtain ⟨E, hE, -⟩ := h.elected_prefix hl hpos hi
  exact h.election_pos hE

/-! ### A commit and a log that may win a later election -/

/-- A log without the committed part has nothing of the leader's term, or of a later one, but
what is in the leader's log as well. -/
lemma parted_low (h : Inv base s) {t k n u : ℕ} {l : List ε} (hl : Rooted s.lead l)
    (hu : ∀ i, termOf l i < u) (hkn : k ≤ n)
    (hbetween : ∀ t' E, t < t' → t' < u → s.election t' = some E →
      (s.lead t).take k <+: E.log)
    (hnot : ¬ (s.lead t).take k <+: l) (i : ℕ) (e : ε) (he : l[i]? = some e) :
    l.take (i + 1) <+: (s.lead t).take n ∨ term e < t := by
  have hi := (List.getElem?_eq_some_iff.mp he).1
  have hterm := termOf_eq_of_getElem? he
  rcases Nat.lt_trichotomy (term e) t with hlt | heq | hgt
  · exact .inr hlt
  · have hroot := hl (i + 1) (Nat.succ_pos i) hi
    rw [hterm, heq] at hroot
    rcases Nat.lt_or_ge n (i + 1) with hout | hin
    · refine absurd ?_ hnot
      refine (List.prefix_of_prefix_length_le (List.take_prefix k _) hroot ?_).trans
        (List.take_prefix _ _)
      simp; omega
    · exact .inl (prefix_take hroot (by simp; omega))
  · obtain ⟨E, hE, hpre⟩ := h.elected_prefix hl (Nat.succ_pos i) hi
    rw [hterm] at hE
    refine absurd ?_ hnot
    calc (s.lead t).take k <+: E.log := hbetween _ E hgt (hterm ▸ hu (i + 1)) hE
      _ <+: l.take (i + 1) := hpre
      _ <+: l := List.take_prefix _ _

/-- Each change of a rooted log is anchored in another one that has what was committed before
the change. -/
lemma anchored_of (h : Inv base s) {l m : List ε} (hl : Rooted s.lead l)
    (hcommit : ∀ (i : ℕ) e k n, l[i]? = some e → s.commit (term e) k n → n ≤ i →
      l.take (i + 1) <+: m ∨ (s.lead (term e)).take k <+: m) : Anchored l m := by
  intro i e he hchange
  have hi := (List.getElem?_eq_some_iff.mp he).1
  have hroot := hl (i + 1) (Nat.succ_pos i) hi
  rw [termOf_eq_of_getElem? he] at hroot
  have hget : ∀ j ≤ i, (s.lead (term e))[j]? = l[j]? := by
    intro j hj
    obtain ⟨r, hr⟩ := hroot
    rw [← hr, List.getElem?_append_left (by simp; omega), List.getElem?_take, if_pos (by omega)]
  obtain ⟨k, n, hk, hn, hnone⟩ := h.anchored ((hget i le_rfl).trans he) hchange rfl
  obtain ⟨hkn, -, hterm⟩ := h.commit_index hk
  rcases hcommit i e k n he hk hn with hall | hpre
  · exact .inl hall
  · have hpos : 0 < k := by
      have hpos := h.termOf_pos hl (Nat.succ_pos i) hi
      rw [termOf_eq_of_getElem? he] at hpos
      exact (exists_of_termOf_ne_zero (by rw [hterm]; omega)).1
    have htake : l.take k = (s.lead (term e)).take k := by
      rw [take_eq_of_isPrefix hroot (by simp; omega), List.take_take, Nat.min_eq_left (by omega)]
    refine .inr ⟨k, hpos, hkn.trans hn, htake ▸ hpre, ?_, fun j e' hkj hji he' => ?_⟩
    · rw [← termOf_take le_rfl, htake, termOf_take le_rfl, hterm]
    · exact hnone j e' hkj hji ((hget j hji.le).trans he')

/-- **A voter who holds the commit**: the majority of a commit and one of a log without the
committed part have a node in common. -/
lemma exists_common (h : Inv base s) {t k n u : ℕ} {E : Election ν ε} {l : List ε}
    {c q q' : Finset ν} (hE : s.election t = some E) (hkn : k ≤ n) (hn : n ≤ (s.lead t).length)
    (hterm : termOf (s.lead t) k = t) (hq : Majority q c)
    (hcounted : Counted base E.winner t ((s.lead t).take n) c) (hl : Rooted s.lead l)
    (hu : ∀ i, termOf l i < u) (hq' : Majority q' (config base l))
    (hearlier : ∀ t' k' n', s.commit t' k' n' → t' < t ∨ (t' = t ∧ n' < n) →
      (s.lead t').take k' <+: l)
    (hbetween : ∀ t' E, t < t' → t' < u → s.election t' = some E →
      (s.lead t).take k <+: E.log)
    (hnot : ¬ (s.lead t).take k <+: l) : ∃ v, v ∈ q ∧ v ∈ q' := by
  have hlead : Rooted s.lead ((s.lead t).take n) :=
    (h.lead_rooted t).of_isPrefix (List.take_prefix _ _)
  have hlow := h.parted_low hl hu hkn hbetween hnot
  have hterms : ∀ (i : ℕ) e, ((s.lead t).take n)[i]? = some e → i < n ∧ term e ≤ t := by
    intro i e he
    have hi := (List.getElem?_eq_some_iff.mp he).1
    rw [List.length_take] at hi
    have := termOf_eq_of_getElem? he
    rw [termOf_take (by omega)] at this
    exact ⟨by omega, this ▸ h.lead_term t (i + 1)⟩
  have hanch : Anchored ((s.lead t).take n) l := by
    refine h.anchored_of hlead fun i e k' n' he hcommit hn' => .inr ?_
    obtain ⟨hi, hle⟩ := hterms i e he
    refine hearlier _ k' n' hcommit ?_
    rcases Nat.lt_or_eq_of_le hle with hlt | heq
    · exact .inl hlt
    · exact .inr ⟨heq, by omega⟩
  have hanch' : Anchored l ((s.lead t).take n) := by
    refine h.anchored_of hl fun i e k' n' he hcommit hn' => ?_
    rcases hlow i e he with hall | hlt
    · exact .inl hall
    · -- what the earlier leader committed is in the log this one was elected with
      have hstart := h.start_lt hE hterm
      exact .inr ((h.complete hcommit hE hlt).trans (prefix_take (h.lead_start hE) (by omega)))
  rcases hcounted with rfl | ⟨rfl, i, e, he, hremove, rfl, hlast⟩
  · exact (close_config hlead hl h.lead_term hanch hanch').overlap hq hq'
  · exact (close_config_insert hlead hl h.lead_term hanch hanch' he hremove hlast
      fun j e' he' _ => hlow j e' he').overlap hq hq'

lemma prefix_of_upToDate (h : Inv base s) {t k u : ℕ} {l m : List ε} (hpos : 0 < t)
    (hterm : termOf (s.lead t) k = t) (hl : Rooted s.lead l) (hm : Rooted s.lead m)
    (hu : ∀ i, termOf l i < u) (hkept : (s.lead t).take k <+: m) (hup : UpToDate l m)
    (hbetween : ∀ t' E, t < t' → t' < u → s.election t' = some E →
      (s.lead t).take k <+: E.log) :
    (s.lead t).take k <+: l := by
  have hk := (exists_of_termOf_ne_zero (by rw [hterm]; omega : termOf (s.lead t) k ≠ 0)).2
  have hkm := hkept.length_le
  rw [List.length_take, Nat.min_eq_left hk] at hkm
  have hmk : termOf m k = t := by
    rw [termOf_of_isPrefix hkept (by simp [hk]), termOf_take le_rfl, hterm]
  have hmlast := hm.sorted h.lead_term hkm le_rfl
  have hle : t ≤ termOf l l.length := by
    rcases hup with hlt | ⟨heq, -⟩ <;> omega
  have hlpos : 0 < l.length := (exists_of_termOf_ne_zero (by omega : termOf l l.length ≠ 0)).1
  rcases Nat.lt_or_eq_of_le hle with hlt | heq
  · obtain ⟨E, hE, hpre⟩ := h.elected_prefix hl hlpos le_rfl
    rw [List.take_length] at hpre
    exact (hbetween _ E hlt (hu _) hE).trans hpre
  · have hlen : k ≤ l.length := by
      rcases hup with hlt | ⟨-, hlen⟩
      · omega
      · omega
    refine List.prefix_of_prefix_length_le (List.take_prefix k _)
      (hl.prefix_of_lastTerm heq.symm hlpos) ?_
    simp; omega

/-- **What a log that wins has**: everything that was committed in earlier terms. -/
theorem complete_of_votes (h : Inv base s) {c : ν} {u : ℕ} {l : List ε} {q : Finset ν}
    (hballot : s.ballot c u l) (hq : Majority q (config base l))
    (hvotes : ∀ v ∈ q, ∃ m, s.vote v u c m) {t k n : ℕ} (hcommit : s.commit t k n)
    (htu : t < u) : (s.lead t).take k <+: l := by
  have hl := h.ballot_rooted hballot
  have hu := (h.ballot_term hballot).2.2
  induction t using Nat.strong_induction_on generalizing k n with
  | _ t iht =>
    induction n using Nat.strong_induction_on generalizing k with
    | _ n ihn =>
      by_contra hnot
      obtain ⟨hkn, hn, hterm⟩ := h.commit_index hcommit
      obtain ⟨E, c', q', hE, hq', hacks, hcounted⟩ := h.commit_majority hcommit
      have hbetween : ∀ t' E, t < t' → t' < u → s.election t' = some E →
          (s.lead t).take k <+: E.log := fun t' E hlt _ hE => h.complete hcommit hE hlt
      obtain ⟨v, hv, hv'⟩ := h.exists_common hE hkn hn hterm hq' hcounted hl hu hq
        (fun t' k' n' hc hlt => by
          rcases hlt with hlt | ⟨rfl, hlt⟩
          · exact iht t' hlt hc (by omega)
          · exact ihn n' hlt hc) hbetween hnot
      obtain ⟨m, hvote⟩ := hvotes v hv'
      obtain ⟨l', hballot', hup⟩ := h.vote_ballot hvote
      obtain rfl := h.ballot_unique hballot hballot'
      rcases h.vote_kept hvote (hacks v hv) htu with hkept | ⟨t', E', hlt, -, hE', hlacks⟩
      · exact hnot (h.prefix_of_upToDate (h.election_pos hE) hterm hl
          (h.vote_rooted hvote) hu hkept hup hbetween)
      · exact hlacks (h.complete hcommit hE' hlt)

/-- **What is committed is in the logs elected later**, at the moment of the commit. -/
theorem complete_of_acks (h : Inv base s) {t k : ℕ} {E : Election ν ε} {c q : Finset ν}
    (hE : s.election t = some E) (hk : k ≤ (s.lead t).length) (hterm : termOf (s.lead t) k = t)
    (hacks : ∀ v ∈ q, s.ack v t k) (hq : Majority q c)
    (hcounted : Counted base E.winner t (s.lead t) c) {u : ℕ} {E' : Election ν ε}
    (hE' : s.election u = some E') (htu : t < u) : (s.lead t).take k <+: E'.log := by
  induction u using Nat.strong_induction_on generalizing E' with
  | _ u ih =>
    by_contra hnot
    have hballot := h.elected_ballot hE'
    have hl := h.ballot_rooted hballot
    have hu := (h.ballot_term hballot).2.2
    have hbetween : ∀ t' E, t < t' → t' < u → s.election t' = some E →
        (s.lead t).take k <+: E.log := fun t' E hlt hlt' hE => ih t' hlt' hE hlt
    have hcounted' : Counted base E.winner t ((s.lead t).take (s.lead t).length) c := by
      rwa [List.take_length]
    obtain ⟨v, hv, hv'⟩ := h.exists_common hE hk le_rfl hterm hq hcounted' hl hu
      (h.elected_majority hE')
      (fun t' k' n' hc hlt => h.complete hc hE' (by omega)) hbetween hnot
    obtain ⟨m, hvote, hkept⟩ := h.elected_kept hE' hv' (hacks v hv) htu
    obtain ⟨l', hballot', hup⟩ := h.vote_ballot hvote
    obtain rfl := h.ballot_unique hballot hballot'
    rcases hkept with hkept | ⟨t', E'', hlt, hle, hE'', hlacks⟩
    · exact hnot (h.prefix_of_upToDate (h.election_pos hE) hterm hl (h.vote_rooted hvote) hu hkept
        hup hbetween)
    · exact hlacks (ih t' (by omega) hE'' hlt)

/-- **One leader in a term**: a majority for one candidate rules out an earlier election of
another one. -/
theorem elected_unique (h : Inv base s) {c : ν} {u : ℕ} {l : List ε} {q : Finset ν}
    (hballot : s.ballot c u l) (hq : Majority q (config base l))
    (hvotes : ∀ v ∈ q, ∃ m, s.vote v u c m) {E : Election ν ε}
    (hE : s.election u = some E) :
    E.winner = c := by
  have hl := h.ballot_rooted hballot
  have hl' := h.ballot_rooted (h.elected_ballot hE)
  have hlow : ∀ {l : List ε} {d : ν}, s.ballot d u l → ∀ (i : ℕ) e, l[i]? = some e →
    term e < u := by
    intro l d hb i e he
    exact termOf_eq_of_getElem? he ▸ (h.ballot_term hb).2.2 (i + 1)
  have hanch : Anchored l E.log := h.anchored_of hl fun i e k n he hcommit _ =>
    .inr (h.complete hcommit hE (hlow hballot i e he))
  have hanch' : Anchored E.log l := h.anchored_of hl' fun i e k n he hcommit _ =>
    .inr (h.complete_of_votes hballot hq hvotes hcommit (hlow (h.elected_ballot hE) i e he))
  have hclose : Close (config base l) (config base E.log) :=
    close_config hl hl' h.lead_term hanch hanch'
  obtain ⟨v, hv, hv'⟩ := hclose.overlap hq (h.elected_majority hE)
  obtain ⟨m, hvote⟩ := hvotes v hv
  obtain ⟨m', hvote'⟩ := h.elected_votes hE hv'
  exact h.vote_once hvote' hvote

end Inv

end DistDB.Consensus
