import DistDB.ConsensusSteps

/-!
Steps of the agreement that one node takes one after the other (`Goes`): what they leave as it
was, at the other nodes and in the history.
-/

namespace DistDB.Consensus

open TermLog Config

variable {ν ε : Type*} {s : St ν ε} {l l' m : List ε} {i u : ℕ}

/-- The first `i` entries of the log are in what leaders have committed in terms up to `u`. -/
def Committed (s : St ν ε) (u : ℕ) (l : List ε) (i : ℕ) : Prop :=
  i ≤ l.length ∧ (i = 0 ∨ ∃ t k n, s.commit t k n ∧ t ≤ u ∧
    l.take i <+: (s.lead t).take k)

/-- The log lacks something that was committed in a term before `u`. -/
def Lacks (s : St ν ε) (u : ℕ) (l : List ε) : Prop :=
  ∃ t k n, s.commit t k n ∧ t < u ∧ ¬ (s.lead t).take k <+: l

lemma committed_zero (s : St ν ε) (u : ℕ) (l : List ε) : Committed s u l 0 :=
  ⟨Nat.zero_le _, .inl rfl⟩

lemma Committed.le (h : Committed s u l i) {j : ℕ} (hj : j ≤ i) : Committed s u l j := by
  obtain ⟨hi, hzero | ⟨t, k, n, hcommit, ht, hpre⟩⟩ := h
  · exact ⟨hj.trans hi, .inl (by omega)⟩
  · exact ⟨hj.trans hi, .inr ⟨t, k, n, hcommit, ht, (take_prefix_of_le hj).trans hpre⟩⟩

lemma Committed.congr (h : Committed s u l i) (hl : l.take i <+: l') : Committed s u l' i := by
  obtain ⟨hi, hrest⟩ := h
  have hlen : (l.take i).length = i := by simpa using hi
  have htake : l'.take i = l.take i := by
    rw [take_eq_of_isPrefix hl hlen.ge, List.take_of_length_le hlen.le]
  refine ⟨hlen ▸ hl.length_le, ?_⟩
  rwa [htake]

variable [DecidableEq ν] [HasTerm ε] [HasChange ε ν] {base : Finset ν}

/-- What is committed is in the log of the leader of the term, and of every later one. -/
lemma Committed.lead (h : Committed s u l i) (hinv : Inv base s) {E : Election ν ε}
    (hE : s.election u = some E) : l.take i <+: s.lead u := by
  obtain ⟨-, rfl | ⟨t, k, n, hcommit, ht, hpre⟩⟩ := h
  · exact List.nil_prefix
  · exact hpre.trans (hinv.prefix_lead hcommit hE ht)

lemma Committed.total (h : Committed s u l i) (hinv : Inv base s) {u' j : ℕ}
    (h' : Committed s u' l' j) : l.take i <+: l'.take j ∨ l'.take j <+: l.take i := by
  obtain ⟨-, rfl | ⟨t, k, n, hcommit, -, hpre⟩⟩ := h
  · exact .inl List.nil_prefix
  obtain ⟨-, rfl | ⟨t', k', n', hcommit', -, hpre'⟩⟩ := h'
  · exact .inr List.nil_prefix
  rcases hinv.committed_total hcommit hcommit' with hle | hle
  · exact prefix_total (hpre.trans hle) hpre'
  · exact prefix_total hpre (hpre'.trans hle)

lemma Committed.getElem?_eq (h : Committed s u l i) (hinv : Inv base s) {u' : ℕ}
    (h' : Committed s u' l' i) (hpos : 0 < i) : l[i - 1]? = l'[i - 1]? := by
  have hlen : (l.take i).length = i := by simpa using h.1
  have hlen' : (l'.take i).length = i := by simpa using h'.1
  have hsame : l.take i = l'.take i := by
    rcases h.total hinv h' with hpre | hpre
    · exact hpre.eq_of_length_le (by omega)
    · exact (hpre.eq_of_length_le (by omega)).symm
  have hat := congrArg (·[i - 1]?) hsame
  simpa [List.getElem?_take, show i - 1 < i by omega] using hat

variable [DecidableEq ε]

/-- The second state is reached from the first one by steps of the node `x`. -/
structure Goes (base : Finset ν) (x : ν) (s s' : St ν ε) : Prop where
  steps : Steps base s s'
  term : ∀ v, s.term v ≤ s'.term v
  term_other : ∀ {v}, v ≠ x → s'.term v = s.term v
  log_other : ∀ {v}, v ≠ x → s'.log v = s.log v
  ballot : ∀ {c t l}, s.ballot c t l → s'.ballot c t l
  vote : ∀ {v t c m}, s.vote v t c m → s'.vote v t c m
  vote_other : ∀ {v t c m}, v ≠ x → s'.vote v t c m → s.vote v t c m
  election : ∀ {t E}, s.election t = some E → s'.election t = some E
  elected : ∀ {t E}, s'.election t = some E → s.election t = some E ∨ E.winner = x
  lead : ∀ t, s.lead t <+: s'.lead t
  ack : ∀ {v t k}, s.ack v t k → s'.ack v t k
  commit : ∀ {t k n}, s.commit t k n → s'.commit t k n

namespace Goes

variable {x : ν} {s' s'' : St ν ε}

lemma refl (s : St ν ε) : Goes base x s s where
  steps := .refl
  term := fun _ => le_rfl
  term_other := fun _ => rfl
  log_other := fun _ => rfl
  ballot := id
  vote := id
  vote_other := fun _ => id
  election := id
  elected := .inl
  lead := fun _ => List.prefix_refl _
  ack := id
  commit := id

lemma trans (h : Goes base x s s') (h' : Goes base x s' s'') : Goes base x s s'' where
  steps := h.steps.trans h'.steps
  term := fun v => (h.term v).trans (h'.term v)
  term_other := fun hv => (h'.term_other hv).trans (h.term_other hv)
  log_other := fun hv => (h'.log_other hv).trans (h.log_other hv)
  ballot := fun hb => h'.ballot (h.ballot hb)
  vote := fun hv => h'.vote (h.vote hv)
  vote_other := fun hv hvote => h.vote_other hv (h'.vote_other hv hvote)
  election := fun hE => h'.election (h.election hE)
  elected := fun hE => (h'.elected hE).elim h.elected .inr
  lead := fun t => (h.lead t).trans (h'.lead t)
  ack := fun ha => h'.ack (h.ack ha)
  commit := fun hc => h'.commit (h.commit hc)

lemma take (h : Goes base x s s') {t k : ℕ} (hk : k ≤ (s.lead t).length) :
    (s'.lead t).take k = (s.lead t).take k := take_eq_of_isPrefix (h.lead t) hk

/-! ### Single steps -/

lemma bump {t : ℕ} (ht : s.term x ≤ t) : Goes base x s (s.bump x t) :=
  { (refl s : Goes base x s s) with
    steps := .single (.bump x t ht)
    term := fun v => by
      by_cases hv : v = x
      · simpa [St.bump, hv] using ht
      · simp [St.bump, hv]
    term_other := fun hv => Function.update_of_ne hv _ _ }

lemma nominate (hpos : 0 < s.term x) (hlow : ∀ i, termOf (s.log x) i < s.term x)
    (hfresh : ∀ l, ¬ s.ballot x (s.term x) l) : Goes base x s (s.nominate x) :=
  { (refl s : Goes base x s s) with
    steps := .single (.nominate x hpos hlow hfresh)
    ballot := .inl }

lemma grant {c : ν} {l : List ε} (hballot : s.ballot c (s.term x) l) (hlog : UpToDate l (s.log x))
    (honce : ∀ d m, s.vote x (s.term x) d m → d = c) : Goes base x s (s.grant x c) :=
  { (refl s : Goes base x s s) with
    steps := .single (.grant x c l hballot hlog honce)
    vote := .inl
    vote_other := fun hv hvote => hvote.elim id fun h => absurd h.1 hv }

lemma win (h : Inv base s) {q : Finset ν} (hballot : s.ballot x (s.term x) (s.log x))
    (hmajority : Majority q (config base (s.log x)))
    (hvotes : ∀ v ∈ q, ∃ m, s.vote v (s.term x) x m)
    (hfresh : ∀ E, s.election (s.term x) = some E → E.winner ≠ x) :
    Goes base x s (s.win x (s.log x) q) := by
  have hnone : s.election (s.term x) = none := by
    cases hE : s.election (s.term x) with
    | none => rfl
    | some E => exact absurd (h.elected_unique hballot hmajority hvotes hE) (hfresh E hE)
  exact {
    (refl s : Goes base x s s) with
    steps := .single (.win x q hballot hmajority hvotes hfresh)
    election := fun {t E} hE => by
      have ht : t ≠ s.term x := by
        rintro rfl
        rw [hnone] at hE
        cases hE
      exact (Function.update_of_ne ht _ _).trans hE
    elected := fun {t E} hE => by
      by_cases ht : t = s.term x
      · subst ht
        have hself := (Function.update_self ..).symm.trans hE
        cases hself
        exact .inr rfl
      · exact .inl ((Function.update_of_ne ht _ _).symm.trans hE)
    lead := fun t => by
      by_cases ht : t = s.term x
      · subst ht
        rw [h.lead_none hnone]
        exact List.nil_prefix
      · simp [St.win, ht] }

lemma propose {E : Election ν ε} {e : ε} (hlead : s.election (s.term x) = some E)
    (hwinner : E.winner = x) (hterm : HasTerm.term e = s.term x)
    (hchange : (change e).isSome → ∃ k m, s.commit (s.term x) k m ∧
      ∀ (j : ℕ) e', k ≤ j → (s.lead (s.term x))[j]? = some e' → change e' = none) :
    Goes base x s (s.propose x e) :=
  { (refl s : Goes base x s s) with
    steps := .single (.propose x E e hlead hwinner hterm hchange)
    log_other := fun hv => Function.update_of_ne hv _ _
    lead := fun t => by
      by_cases ht : t = s.term x
      · simp [St.propose, ht]
      · simp [St.propose, ht] }

lemma replace {E : Election ν ε} {m : List ε} (hlead : s.election (s.term x) = some E)
    (hother : E.winner ≠ x) (hm : m <+: s.lead (s.term x)) :
    Goes base x s (s.setLog x (merge (s.log x) m)) :=
  { (refl s : Goes base x s s) with
    steps := .single (.replace x E m hlead hother hm)
    log_other := fun hv => Function.update_of_ne hv _ _ }

lemma adopt {t k n : ℕ} {m : List ε} (hcommit : s.commit t k n) (ht : t ≤ s.term x)
    (hm : m <+: (s.lead t).take k) : Goes base x s (s.setLog x (merge (s.log x) m)) :=
  { (refl s : Goes base x s s) with
    steps := .single (.adopt x t k n m hcommit ht hm)
    log_other := fun hv => Function.update_of_ne hv _ _ }

lemma hold {k : ℕ} (hlead : (s.election (s.term x)).isSome)
    (hk : k ≤ (s.lead (s.term x)).length) (hlog : (s.lead (s.term x)).take k <+: s.log x) :
    Goes base x s (s.hold x k) :=
  { (refl s : Goes base x s s) with
    steps := .single (.hold x k hlead hk hlog)
    ack := .inl }

lemma decide {t k : ℕ} {E : Election ν ε} {c q : Finset ν} (hlead : s.election t = some E)
    (hk : k ≤ (s.lead t).length) (hterm : termOf (s.lead t) k = t)
    (hacks : ∀ v ∈ q, s.ack v t k) (hmajority : Majority q c)
    (hcounted : Counted base E.winner t (s.lead t) c) :
    Goes base x s (s.decide t k) :=
  { (refl s : Goes base x s s) with
    steps := .single (.decide t k E c q hlead hk hterm hacks hmajority hcounted)
    commit := .inl }

end Goes

variable {s' : St ν ε}

lemma Committed.mono {x : ν} (h : Committed s u l i) (hinv : Inv base s)
    (hgoes : Goes base x s s') {u' : ℕ} (hu : u ≤ u') : Committed s' u' l i := by
  obtain ⟨hi, hzero | ⟨t, k, n, hcommit, ht, hpre⟩⟩ := h
  · exact ⟨hi, .inl hzero⟩
  · obtain ⟨hkn, hn, -⟩ := hinv.commit_index hcommit
    refine ⟨hi, .inr ⟨t, k, n, hgoes.commit hcommit, ht.trans hu, ?_⟩⟩
    rwa [hgoes.take (hkn.trans hn)]

lemma Lacks.mono {x : ν} (h : Lacks s u l) (hinv : Inv base s) (hgoes : Goes base x s s') :
    Lacks s' u l := by
  obtain ⟨t, k, n, hcommit, ht, hnot⟩ := h
  obtain ⟨hkn, hn, -⟩ := hinv.commit_index hcommit
  refine ⟨t, k, n, hgoes.commit hcommit, ht, ?_⟩
  rwa [hgoes.take (hkn.trans hn)]

/-- The start stays where a part of the log of that or a later term's leader is merged. -/
lemma Committed.merge (h : Committed s u l i) (hinv : Inv base s) {E : Election ν ε}
    (hE : s.election u = some E) (hm : m <+: s.lead u) : Committed s u (merge l m) i := by
  refine h.congr (prefix_merge_of_total (List.take_prefix i l) ?_)
  exact prefix_total (h.lead hinv hE) hm

end DistDB.Consensus
