import DistDB.LogCalls

/-!
Batches of entries from one leader that reach a follower late, repeatedly and out of order.

The leader's log grows while it leads, and each batch is cut from it at some time. Merging a
batch into a log that matches the leader's truncates only where the two have parted: what
agrees with the leader stays (`nothing_agreed_is_lost`), and what a batch has brought into
agreement keeps agreeing (`accepted_stays`).
-/

namespace DistDB.LogDelivery

open FullLog TermLog LogCalls

structure Batch where
  prevLogIndex : ℕ
  prevLogTerm : ℕ
  entries : List LogEntry
  deriving DecidableEq

/-- The batch behind `prev` that a leader sends when its log has `n` entries. -/
def cut (leader : List LogEntry) (prev n : ℕ) : Batch :=
  ⟨prev, termOf leader prev, (leader.take n).drop prev⟩

def deliver (log : RaftLog) (b : Batch) : Option RaftLog :=
  log.appendEntriesFrom b.prevLogIndex b.prevLogTerm b.entries

/-- A log beside the leader's, which it matches, and which has what it has compacted away. -/
structure Follows (leader : List LogEntry) (log : RaftLog) (l : List LogEntry) : Prop where
  holds : Holds log l
  indexed : Indexed leader
  positive : ∀ e ∈ leader, 0 < e.term
  matched : Matches l leader
  boundary : l.take log.snapshotIndex <+: leader

variable {leader l p : List LogEntry} {log log' : RaftLog} {prev n : ℕ}

lemma termOf_pos (hpos : ∀ e ∈ leader, 0 < e.term) {i : ℕ} (hi : 0 < i)
    (hle : i ≤ leader.length) :
    0 < termOf leader i := by
  obtain ⟨i, rfl⟩ : ∃ k, i = k + 1 := ⟨i - 1, by omega⟩
  have hget : leader[i]? = some leader[i] := List.getElem?_eq_getElem hle
  rw [termOf_eq_of_getElem? hget]
  exact hpos _ (List.getElem_mem _)

lemma take_take_of_le {ε : Type*} {xs : List ε} {j k : ℕ} (h : j ≤ k) :
    (xs.take k).take j = xs.take j := by
  rw [List.take_take, Nat.min_eq_left h]

lemma matches_take (h : Matches l leader) (n : ℕ) : Matches l (leader.take n) := by
  intro j hjl hjn hterm
  have hle : j ≤ n := hjn.trans (List.length_take_le n leader)
  rw [termOf_take hle] at hterm
  rw [take_take_of_le hle]
  exact h j hjl (hjn.trans (List.length_take_le' n leader)) hterm

lemma matches_of_isPrefix (h : l <+: leader) : Matches l leader :=
  fun _ hjl _ _ => (take_eq_of_isPrefix h hjl).symm

lemma deliver_isSome (h : Follows leader log l) (hprev : prev ≤ leader.length) :
    (deliver log (cut leader prev n)).isSome ↔ prev = 0 ∨
      (log.snapshotIndex ≤ prev ∧ prev ≤ l.length ∧ l.take prev = leader.take prev) := by
  unfold deliver cut
  rw [appendEntriesFrom_eq]
  rcases Nat.eq_zero_or_pos prev with rfl | hpos
  · simp
  have hterm := termOf_pos h.positive hpos hprev
  constructor
  · intro hsome
    have hcheck : log.termAt prev = termOf leader prev := by
      by_contra hne
      simp [hpos, hne] at hsome
    have hlo : log.snapshotIndex ≤ prev := by
      by_contra hlt
      rw [Holds.termAt_of_lt (by omega)] at hcheck
      omega
    rw [h.holds.termAt hlo] at hcheck
    have hlen : prev ≤ l.length := (exists_of_termOf_ne_zero (by omega)).2
    exact .inr ⟨hlo, hlen, h.matched prev hlen hprev hcheck⟩
  · rintro (rfl | ⟨hlo, hlen, htake⟩)
    · omega
    · have hsame : log.termAt prev = termOf leader prev := by
        rw [h.holds.termAt hlo, ← termOf_take le_rfl, htake, termOf_take le_rfl]
      rw [if_neg fun hno => hno.2 hsame]
      rfl

/-- **What a batch does**: the log is merged with what the leader had. -/
theorem deliver_merges (h : Follows leader log l) (hprev : prev ≤ n) (hn : n ≤ leader.length)
    (hsome : deliver log (cut leader prev n) = some log') :
    log'.snapshotIndex = log.snapshotIndex ∧
      Follows leader log' (merge l (leader.take n)) := by
  have hcheck := (deliver_isSome h (hprev.trans hn)).mp (by rw [hsome]; rfl)
  have hlog' : log' = log.putAll (prev + 1) ((leader.take n).drop prev) := by
    unfold deliver cut at hsome
    rw [appendEntriesFrom_eq] at hsome
    split_ifs at hsome
    exact (Option.some.inj hsome).symm
  have hlen : (leader.take n).length = n := by simpa using hn
  have htake : l.take prev = (leader.take n).take prev := by
    rw [take_take_of_le hprev]
    rcases hcheck with rfl | ⟨-, -, hagree⟩
    · rfl
    · exact hagree
  have hsnap : ∀ j, j ≤ log.snapshotIndex → j ≤ (leader.take n).length →
      l.take j = (leader.take n).take j := by
    intro j hj hjn
    have hlo : j ≤ (l.take log.snapshotIndex).length := by
      rw [List.length_take, Nat.min_eq_left h.holds.snapshot_le]
      exact hj
    rw [take_take_of_le (by omega), take_eq_of_isPrefix h.boundary hlo, take_take_of_le hj]
  obtain ⟨hsame, hall⟩ := h.holds.putAll_merge (h.indexed.take n)
    (matches_take h.matched n) hsnap (k := prev) (by omega) htake
  rw [← hlog'] at hsame hall
  refine ⟨hsame, hall, h.indexed, h.positive, ?_, ?_⟩
  · unfold merge
    split_ifs
    · exact h.matched
    · exact matches_of_isPrefix (List.take_prefix n leader)
  · rw [hsame]
    unfold merge
    split_ifs
    · exact h.boundary
    · exact (List.take_prefix _ _).trans (List.take_prefix n leader)

lemma prefix_kept (hp : p <+: l) (hleader : p <+: leader) : p <+: merge l (leader.take n) :=
  prefix_merge_of_total hp (prefix_total hleader (List.take_prefix n leader))

structure Sys where
  leader : List LogEntry
  log : RaftLog
  deriving DecidableEq

inductive Event
  | grow (term : ℕ) (command : Bytes)
  /-- A batch arrives that the leader has cut when its log had `n` entries. -/
  | arrive (prev n : ℕ)
  | compact (index : ℕ)

def step (s : Sys) : Event → Sys
  | .grow term command => { s with leader :=
      s.leader ++ [⟨s.leader.length + 1, term, command⟩] }
  | .arrive prev n => { s with log := (deliver s.log (cut s.leader prev n)).getD s.log }
  | .compact index => { s with log := s.log.compactTo index (termOf s.leader index) }

/-- The follower agrees with the leader on everything up to an index that it still holds. -/
structure Agrees (s : Sys) (n : ℕ) : Prop where
  log_le : n ≤ s.log.lastIndex
  leader_le : n ≤ s.leader.length
  get : ∀ i, s.log.snapshotIndex < i → i ≤ n → s.log.get i = s.leader[i - 1]?
  termAt : ∀ i, s.log.snapshotIndex ≤ i → i ≤ n → s.log.termAt i = termOf s.leader i

/-- Terms are positive, what the follower had at first matches what the leader adds, batches
were cut from the leader's log, and only what agrees with it is compacted. -/
def Allowed (initial : List LogEntry) (s : Sys) : Event → Prop
  | .grow term command =>
    0 < term ∧ Matches initial (s.leader ++ [⟨s.leader.length + 1, term, command⟩])
  | .arrive prev n => prev ≤ n ∧ n ≤ s.leader.length
  | .compact index => Agrees s index

/-- The follower's whole log is what it had at first or a part of the leader's. -/
structure Inv (initial : List LogEntry) (s : Sys) (l : List LogEntry) : Prop where
  follows : Follows s.leader s.log l
  origin : l = initial ∨ l <+: s.leader

variable {initial : List LogEntry} {s : Sys}

lemma Agrees.whole (h : Agrees s n) (hl : Follows s.leader s.log l)
    (hlo : s.log.snapshotIndex ≤ n) :
    l.take n = s.leader.take n :=
  hl.matched n (hl.holds.lastIndex ▸ h.log_le) h.leader_le
    ((hl.holds.termAt hlo).symm.trans (h.termAt n hlo le_rfl))

lemma take_eq_of_common (hp : leader.take n <+: l) (hn : n ≤ leader.length) :
    l.take n = leader.take n := by
  have hlen : (leader.take n).length = n := by simpa using hn
  have htake := take_eq_of_isPrefix hp hlen.ge
  rwa [take_take_of_le le_rfl] at htake

lemma agrees_of_common (hl : Follows s.leader s.log l) (hp : s.leader.take n <+: l)
    (hn : n ≤ s.leader.length) : Agrees s n := by
  have htake := take_eq_of_common hp hn
  have hlen : n ≤ l.length := by simpa [hn] using hp.length_le
  exact {
    log_le := hl.holds.lastIndex ▸ hlen
    leader_le := hn
    get := fun i hlo hi => by
      have hat := congrArg (·[i - 1]?) htake
      simp only [List.getElem?_take, show i - 1 < n by omega, if_true] at hat
      rw [hl.holds.get hlo, hat]
    termAt := fun i hlo hi => by
      rw [hl.holds.termAt hlo, ← termOf_take hi, htake, termOf_take hi] }

/-! ### Steps -/

lemma Inv.arrive (h : Inv initial s l) (hprev : prev ≤ n) (hn : n ≤ s.leader.length)
    (hsome : deliver s.log (cut s.leader prev n) = some log') :
    Inv initial ⟨s.leader, log'⟩ (merge l (s.leader.take n)) := by
  refine ⟨(deliver_merges h.follows hprev hn hsome).2, ?_⟩
  unfold merge
  split_ifs
  · exact h.origin
  · exact .inr (List.take_prefix n s.leader)

/-- **What one step keeps**: a common start of the follower's log and the leader's. -/
theorem Inv.step (h : Inv initial s l) {e : Event} (hok : Allowed initial s e) :
    s.leader <+: (step s e).leader ∧ ∃ l', Inv initial (LogDelivery.step s e) l' ∧
      ∀ p, p <+: l → p <+: s.leader → p <+: l' := by
  have hl := h.follows
  have horigin := h.origin
  cases e with
  | grow term command =>
    have hgrows : s.leader <+: s.leader ++ [⟨s.leader.length + 1, term, command⟩] :=
      List.prefix_append _ _
    refine ⟨hgrows, l, ⟨⟨hl.holds, hl.indexed.concat term command, ?_, ?_,
      hl.boundary.trans hgrows⟩, horigin.imp_right (·.trans hgrows)⟩, fun p hp _ => hp⟩
    · intro e he
      rcases List.mem_append.mp he with hold | hnew
      · exact hl.positive e hold
      · rw [List.mem_singleton.mp hnew]
        exact hok.1
    · rcases horigin with rfl | hpart
      · exact hok.2
      · exact matches_of_isPrefix (hpart.trans hgrows)
  | arrive prev n =>
    refine ⟨List.prefix_refl _, ?_⟩
    unfold LogDelivery.step
    dsimp only
    cases hsome : deliver s.log (cut s.leader prev n) with
    | none => exact ⟨l, ⟨hl, horigin⟩, fun p hp _ => hp⟩
    | some log' =>
      exact ⟨_, h.arrive hok.1 hok.2 hsome, fun p hp hleader => prefix_kept hp hleader⟩
  | compact index =>
    refine ⟨List.prefix_refl _, l, ⟨?_, horigin⟩, fun p hp _ => hp⟩
    rcases Nat.lt_or_ge index s.log.snapshotIndex with hlt | hge
    · show Follows s.leader (s.log.compactTo index (termOf s.leader index)) l
      rwa [Holds.compactTo_of_le hlt.le]
    · obtain ⟨hholds, hsnap, -⟩ := hl.holds.compactTo_termAt hge
        (hl.holds.lastIndex ▸ hok.log_le)
      rw [hok.termAt index hge le_rfl] at hholds hsnap
      refine ⟨hholds, hl.indexed, hl.positive, hl.matched, ?_⟩
      show l.take (s.log.compactTo index (termOf s.leader index)).snapshotIndex <+: s.leader
      rw [hsnap, hok.whole hl hge]
      exact List.take_prefix _ _

/-- What a run keeps. -/
theorem Inv.run (h : Inv initial s l) {s' : Sys}
    (hrun : Reach (StepOf LogDelivery.step) (Allowed initial) s s') :
    s.leader <+: s'.leader ∧ ∃ l', Inv initial s' l' ∧
      ∀ p, p <+: l → p <+: s.leader → p <+: l' := by
  refine hrun.invariant (I := fun s' => s.leader <+: s'.leader ∧ ∃ l', Inv initial s' l' ∧
    ∀ p, p <+: l → p <+: s.leader → p <+: l')
      ⟨List.prefix_refl _, l, h, fun p hp _ => hp⟩ ?_
  rintro s₁ e _ ⟨hleader, l₁, h₁, hkept⟩ hok rfl
  obtain ⟨hleader', l₂, h₂, hkept'⟩ := h₁.step hok
  exact ⟨hleader.trans hleader', l₂, h₂, fun p hp hin =>
    hkept' p (hkept p hp hin) (hin.trans hleader)⟩

lemma prefix_of_get (hl : Follows s.leader s.log l) {i : ℕ} {entry : LogEntry}
    (hi : s.log.snapshotIndex < i) (hget : s.log.get i = some entry)
    (hsame : s.leader[i - 1]? = some entry) : l.take i <+: s.leader := by
  rw [hl.holds.get hi] at hget
  have hlen := (List.getElem?_eq_some_iff.mp hget).1
  have hlen' := (List.getElem?_eq_some_iff.mp hsame).1
  have hterm := termOf_eq_of_getElem? hget
  have hterm' := termOf_eq_of_getElem? hsame
  rw [Nat.sub_add_cancel (by omega)] at hterm hterm'
  rw [hl.matched i (by omega) (by omega) (hterm.trans hterm'.symm)]
  exact List.take_prefix i s.leader

/-- **Late batches lose nothing**: whatever the order in which batches of one leader arrive,
how often, and what is compacted in between, no entry that agrees with the leader's log is
removed or changed above the boundary; and the follower goes on agreeing with the leader on
everything that an accepted batch has reached. -/
theorem late_batches_lose_nothing {s₀ : Sys} (h₀ : Follows s₀.leader s₀.log initial)
    (hrun : Reach (StepOf step) (Allowed initial) s₀ s) {e : Event} (hok : Allowed initial s e) :
    (∀ i entry, (step s e).log.snapshotIndex < i → s.log.get i = some entry →
      s.leader[i - 1]? = some entry → (step s e).log.get i = some entry) ∧
    ∀ prev n, e = .arrive prev n → (deliver s.log (cut s.leader prev n)).isSome →
      ∀ s', Reach (StepOf step) (Allowed initial) (step s e) s' → Agrees s' n := by
  obtain ⟨-, l, hl, -⟩ := Inv.run ⟨h₀, .inl rfl⟩ hrun
  obtain ⟨hleader, l', hl', hkept⟩ := hl.step hok
  constructor
  · intro i entry hi hget hsame
    have hsnap : s.log.snapshotIndex < i := by
      by_contra hle
      rw [Holds.get_of_le (by omega)] at hget
      cases hget
    have hprefix := hkept _ (List.take_prefix i l) (prefix_of_get hl.follows hsnap hget hsame)
    rw [hl.follows.holds.get hsnap] at hget
    have hlen := (List.getElem?_eq_some_iff.mp hget).1
    have htake := take_eq_of_common hprefix (by omega)
    have hat := congrArg (·[i - 1]?) htake
    simp only [List.getElem?_take, show i - 1 < i by omega, if_true] at hat
    rw [hl'.follows.holds.get hi, hat, hget]
  · rintro prev n rfl hsome s' hrun'
    obtain ⟨log', hlog'⟩ := Option.isSome_iff_exists.mp hsome
    have hafter : Inv initial (step s (.arrive prev n)) (merge l (s.leader.take n)) := by
      have harrive := hl.arrive hok.1 hok.2 hlog'
      unfold step
      dsimp only
      rwa [hlog']
    obtain ⟨hgrown, l'', hl'', hkept''⟩ := hafter.run hrun'
    have hn : n ≤ s.leader.length := hok.2
    refine agrees_of_common hl''.follows ?_ (hn.trans hgrown.length_le)
    rw [take_eq_of_isPrefix hgrown hn]
    exact hkept'' _ (prefix_merge _ _) (List.take_prefix n s.leader)

/-- The leader has two entries, of which the follower has the first one and another second
one. -/
def parted : Sys where
  leader := [⟨1, 1, [97]⟩, ⟨2, 2, [98]⟩]
  log := ((RaftLog.empty.append 1 [97]).1.append 1 [99]).1

/-- The second entry arrives, and then the batch of the first one alone. -/
theorem late_batches_lose_nothing_two :
    Agrees (step (step parted (.arrive 1 2)) (.arrive 0 1)) 2 := by
  have hholds : Holds parted.log [⟨1, 1, [97]⟩, ⟨2, 1, [99]⟩] :=
    (Holds.empty.append 1 [97]).append 1 [99]
  have h₀ : Follows parted.leader parted.log [⟨1, 1, [97]⟩, ⟨2, 1, [99]⟩] :=
    ⟨hholds, (Indexed.concat (l := [⟨1, 1, [97]⟩]) (Indexed.concat (l := []) nofun 1 [97]) 2
      [98]), by decide, by unfold Matches; decide, List.nil_prefix⟩
  have hlate := (late_batches_lose_nothing h₀ .refl (e := .arrive 1 2)
    ⟨by decide, by decide⟩).2
  have hrun : Reach (StepOf step) (Allowed [⟨1, 1, [97]⟩, ⟨2, 1, [99]⟩])
      (step parted (.arrive 1 2)) (step parted (.arrive 1 2)) := .refl
  exact hlate 1 2 rfl (by decide) _ (next hrun (.arrive 0 1) ⟨by decide, by decide⟩)

/-- The conditions on the batches alone: the leader adds any entries of positive terms. -/
def Unmatched (s : Sys) : Event → Prop
  | .grow term _ => 0 < term
  | .arrive prev n => prev ≤ n ∧ n ≤ s.leader.length
  | .compact index => Agrees s index

/-- The leader has no entry yet, and the follower has one. -/
def ahead : Sys := ⟨[], (RaftLog.empty.append 1 [99]).1⟩

/-- **Logs that match at first are not enough**: the leader adds an entry of the same index and
term as the follower's, and its batch is accepted without a change. -/
theorem late_batches_unmatched : ¬ ∀ (initial : List LogEntry) (s₀ s : Sys) (prev n : ℕ),
    Follows s₀.leader s₀.log initial → Reach (StepOf step) Unmatched s₀ s →
    Unmatched s (.arrive prev n) → (deliver s.log (cut s.leader prev n)).isSome →
    ∀ s', Reach (StepOf step) Unmatched (step s (.arrive prev n)) s' → Agrees s' n := by
  intro hall
  have h₀ : Follows ahead.leader ahead.log [⟨1, 1, [99]⟩] :=
    ⟨Holds.empty.append 1 [99], (fun i e he => by cases he), (fun e he => by cases he),
      (fun j _ hj _ => by rw [Nat.le_zero.mp hj]; rfl), List.nil_prefix⟩
  have hgrown : Reach (StepOf step) Unmatched ahead (step ahead (.grow 1 [97])) :=
    Reach.refl.tail (e := .grow 1 [97]) Nat.one_pos rfl
  have hagrees := hall _ ahead _ 0 1 h₀ hgrown ⟨Nat.zero_le 1, le_rfl⟩ (by decide) _ .refl
  exact absurd (hagrees.get 1 (by decide) le_rfl) (by decide)

end DistDB.LogDelivery
