import Mathlib.Logic.Function.Basic
import Mathlib.Logic.Relation
import DistDB.Config

/-!
Agreement on a log by leaders that are elected for terms, over any nodes and entries, with
configurations that change through the log.

A state holds the terms and logs of the nodes, and the history: candidacies, votes,
elections, the log of each leader, acknowledgements and commits. Messages have no place
here: a step may use anything that is in the history, at any later time.

Each node votes once in a term, for a candidate whose log is not behind its own. A leader
starts from the log it was elected with. A node that is not the leader of its term may take
over any part of the leader's log, any node what is committed. A leader commits an entry of
its own term that a majority of the configuration behind its log holds. It appends a change
of the configuration only behind something of its own term that it has committed, with no
other change in between.
-/

namespace DistDB.Consensus

open TermLog Config

structure Election (ν ε : Type*) where
  winner : ν
  /-- The log of the winner when it stood. -/
  log : List ε
  voters : Finset ν

structure St (ν ε : Type*) where
  term : ν → ℕ
  log : ν → List ε
  /-- The node stood in the term with the log. -/
  ballot : ν → ℕ → List ε → Prop
  /-- The node voted in the term for a node, when it had the log. -/
  vote : ν → ℕ → ν → List ε → Prop
  election : ℕ → Option (Election ν ε)
  /-- The log of the leader of the term, as far as it got. -/
  lead : ℕ → List ε
  /-- The node, in the term, held so many entries of its leader's log. -/
  ack : ν → ℕ → ℕ → Prop
  /-- The leader of the term committed so many entries, when its log had the length. -/
  commit : ℕ → ℕ → ℕ → Prop

section

variable {ν ε : Type*} [DecidableEq ν] [DecidableEq ε] [HasTerm ε] [HasChange ε ν]

/-- Every node in term zero with an empty log, and no history. -/
def St.init : St ν ε where
  term := fun _ => 0
  log := fun _ => []
  ballot := fun _ _ _ => False
  vote := fun _ _ _ _ => False
  election := fun _ => none
  lead := fun _ => []
  ack := fun _ _ _ => False
  commit := fun _ _ _ => False

/-- The first log is not behind the second one. -/
def UpToDate (l m : List ε) : Prop :=
  termOf m m.length < termOf l l.length ∨
    (termOf m m.length = termOf l l.length ∧ m.length ≤ l.length)

/-- The configuration in which the leader `x` of a term counts with this log: a leader that
has removed itself counts itself until that is committed. -/
def Counted (base : Finset ν) (x : ν) (t : ℕ) (l : List ε) (c : Finset ν) : Prop :=
  c = config base l ∨ (c = insert x (config base l) ∧ ∃ i e, l[i]? = some e ∧
    change e = some (.remove x) ∧ term e = t ∧
    ∀ (j : ℕ) e', i < j → l[j]? = some e' → change e' = none)

namespace St

variable (s : St ν ε)

def bump (v : ν) (t : ℕ) : St ν ε := { s with term := Function.update s.term v t }

def nominate (v : ν) : St ν ε :=
  { s with ballot := fun c t l => s.ballot c t l ∨ (c = v ∧ t = s.term v ∧ l = s.log v) }

def grant (v c : ν) : St ν ε :=
  { s with vote := fun w t d l => s.vote w t d l ∨
    (w = v ∧ t = s.term v ∧ d = c ∧ l = s.log v) }

def win (c : ν) (l : List ε) (q : Finset ν) : St ν ε :=
  { s with
    election := Function.update s.election (s.term c) (some ⟨c, l, q⟩)
    lead := Function.update s.lead (s.term c) l }

def propose (c : ν) (e : ε) : St ν ε :=
  { s with
    log := Function.update s.log c (s.log c ++ [e])
    lead := Function.update s.lead (s.term c) (s.lead (s.term c) ++ [e]) }

def setLog (v : ν) (l : List ε) : St ν ε := { s with log := Function.update s.log v l }

def hold (v : ν) (k : ℕ) : St ν ε :=
  { s with ack := fun w t j => s.ack w t j ∨ (w = v ∧ t = s.term v ∧ j ≤ k) }

def decide (t k : ℕ) : St ν ε :=
  { s with commit := fun t' k' m => s.commit t' k' m ∨
    (t' = t ∧ k' = k ∧ m = (s.lead t).length) }

end St

inductive Step (base : Finset ν) (s : St ν ε) : St ν ε → Prop
  | bump (v : ν) (t : ℕ) (h : s.term v ≤ t) : Step base s (s.bump v t)
  | nominate (v : ν) (hpos : 0 < s.term v) (hlow : ∀ i, termOf (s.log v) i < s.term v)
      (hfresh : ∀ l, ¬ s.ballot v (s.term v) l) : Step base s (s.nominate v)
  | grant (v c : ν) (l : List ε) (hballot : s.ballot c (s.term v) l)
      (hlog : UpToDate l (s.log v)) (honce : ∀ d m, s.vote v (s.term v) d m → d = c) :
      Step base s (s.grant v c)
  | win (c : ν) (q : Finset ν) (hballot : s.ballot c (s.term c) (s.log c))
      (hmajority : Majority q (config base (s.log c)))
      (hvotes : ∀ v ∈ q, ∃ m, s.vote v (s.term c) c m)
      (hfresh : ∀ E, s.election (s.term c) = some E → E.winner ≠ c) :
      Step base s (s.win c (s.log c) q)
  | propose (c : ν) (E : Election ν ε) (e : ε) (hlead : s.election (s.term c) = some E)
      (hwinner : E.winner = c) (hterm : term e = s.term c)
      (hchange : (change e).isSome → ∃ k m, s.commit (s.term c) k m ∧
        ∀ (j : ℕ) e', k ≤ j → (s.lead (s.term c))[j]? = some e' → change e' = none) :
      Step base s (s.propose c e)
  | replace (v : ν) (E : Election ν ε) (m : List ε) (hlead : s.election (s.term v) = some E)
      (hother : E.winner ≠ v) (hm : m <+: s.lead (s.term v)) :
      Step base s (s.setLog v (merge (s.log v) m))
  | hold (v : ν) (k : ℕ) (hlead : (s.election (s.term v)).isSome)
      (hk : k ≤ (s.lead (s.term v)).length)
      (hlog : (s.lead (s.term v)).take k <+: s.log v) : Step base s (s.hold v k)
  | decide (t k : ℕ) (E : Election ν ε) (c q : Finset ν) (hlead : s.election t = some E)
      (hk : k ≤ (s.lead t).length) (hterm : termOf (s.lead t) k = t)
      (hacks : ∀ v ∈ q, s.ack v t k) (hmajority : Majority q c)
      (hcounted : Counted base E.winner t (s.lead t) c) : Step base s (s.decide t k)
  | adopt (v : ν) (t k n : ℕ) (m : List ε) (hcommit : s.commit t k n) (ht : t ≤ s.term v)
      (hm : m <+: (s.lead t).take k) : Step base s (s.setLog v (merge (s.log v) m))

/-- The steps that lead to a state, one after the other. -/
abbrev Steps (base : Finset ν) : St ν ε → St ν ε → Prop :=
  Relation.ReflTransGen (Step base)

end

end DistDB.Consensus
