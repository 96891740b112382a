import DistDB.ClusterFixed

/-!
Safety of a cluster whose members do not change: logs match (`logs_match`), and no two commands
are ever applied at one index (`one_command`).
-/

namespace DistDB.ClusterModel

open NodeModel NodeModel.Node Elections Agreement Config FullLog TermLog
open Consensus (Goes Committed)

variable {σ : Type} {base : Finset NodeId} {Q : History → σ → Prop} {cb : Callbacks σ}
  {own : NodeId → PeerAddress} {peers : NodeId → OrdMap NodeId PeerAddress}
  {machine : NodeId → σ} {s : Cluster σ}

/-- A node starts again with what the relation says of its machine. -/
def KeepsMachine (R : σ → σ → Prop) (s : Cluster σ) : Event σ → Prop
  | .restart v machine => R (s.node v).machine machine
  | _ => True

theorem tracks_fixed (hcb : cb.Total) (hw : Watches base cb Q) {R : σ → σ → Prop}
    (hR : ∀ {a m m'}, R m m' → Q a m → Q a m')
    (hpeers : ∀ v ∈ base, (peers v).keys = base.erase v)
    (hmachine : ∀ v, Q Consensus.St.init (machine v))
    (hrun : Reach (StepOf? (Cluster.step? cb)) (fun s e => FixedEvent e ∧ KeepsMachine R s e)
      (Cluster.boot base own peers machine) s) :
    ∃ a, Tracks base Q a s ∧ Elections.Inv s.group ∧ Fixed base s := by
  refine hrun.invariant
    (I := fun s => ∃ a, Tracks base Q a s ∧ Elections.Inv s.group ∧ Fixed base s) ?_ ?_
  · refine ⟨_, tracks_boot hpeers hmachine, votes_boot hpeers, ?_⟩
    exact {
      member := fun v hv => by
        unfold Cluster.boot Cluster.init RaftGroup.init Cluster.node
        dsimp only
        rw [if_pos hv]
        exact ⟨rfl, hpeers v hv, hpeers v hv, fun e he => by cases he⟩
      whole := fun v e he => by cases he
      round := fun h => by cases h
      send := fun h => by cases h
      ends := fun h => by cases h
      append := fun h => by cases h
      snapshot := fun h => by cases h }
  · rintro s e s' ⟨a, htracks, hvotes, hfixed⟩ ⟨hok, hkeeps⟩ hs
    obtain ⟨v, a', -, htracks'⟩ := htracks.step hvotes hcb hw (hfixed.careful htracks hok)
      (fun v m he => by
        subst he
        exact hR hkeeps (htracks.server v).agrees.machine) hs
    exact ⟨a', htracks', votes_step hvotes hs, hfixed.step htracks hok hs⟩

/-- A cluster whose members do not change meets the conditions on changes of them. -/
theorem careful_of_fixed {ok : Cluster σ → Event σ → Prop} (hcb : cb.Total)
    (hpeers : ∀ v ∈ base, (peers v).keys = base.erase v)
    (hrun : Reach (StepOf? (Cluster.step? cb)) (fun s e => FixedEvent e ∧ ok s e)
      (Cluster.boot base own peers machine) s) :
    Reach (StepOf? (Cluster.step? cb)) (fun s e => Careful s e ∧ ok s e)
      (Cluster.boot base own peers machine) s := by
  induction hrun with
  | refl => exact .refl
  | tail hrun hok hs ih =>
    obtain ⟨a, htracks, -, hfixed⟩ := tracks_fixed (Q := fun _ _ => True)
      (R := fun _ _ => True) hcb (watches_nothing base cb) (fun _ _ => trivial) hpeers
      (fun _ => trivial)
      (hrun.mono fun s e hok => ⟨hok.1, by cases e <;> exact trivial⟩)
    exact ih.tail ⟨hfixed.careful htracks hok.1, hok.2⟩ hs

/-! ### Logs match -/

/-- **Log matching**: two logs that retain an entry of one term at an index have the same
command there, and the same terms and commands at the lower indices that both retain. The term
of a snapshot boundary is that of the entry which the other log retains there. -/
theorem logs_match (hcb : cb.Total) (hpeers : ∀ v ∈ base, (peers v).keys = base.erase v)
    (hrun : Reach (StepOf? (Cluster.step? cb)) (fun _ e => FixedEvent e)
      (Cluster.boot base own peers machine) s)
    {v w : NodeId} {i : ℕ} {e e' : LogEntry} (hv : (s.node v).log.get i = some e)
    (hw : (s.node w).log.get i = some e') (hterm : e.term = e'.term) :
    e.command = e'.command ∧
    (∀ j < i, ∀ f f', (s.node v).log.get j = some f → (s.node w).log.get j = some f' →
      f.term = f'.term ∧ f.command = f'.command) ∧
    ∀ f, (s.node w).log.snapshotIndex < i →
      (s.node v).log.get (s.node w).log.snapshotIndex = some f →
      f.term = (s.node w).log.snapshotTerm := by
  obtain ⟨a, htracks, -⟩ := tracks_fixed (Q := fun _ _ => True) (R := fun _ _ => True) hcb
    (watches_nothing base cb) (fun _ _ => trivial) hpeers (fun _ => trivial)
    (hrun.mono fun s e hok => ⟨hok, by cases e <;> exact trivial⟩)
  -- what a log retains is in the whole log, and is above its boundary
  have hretained : ∀ {x j f}, (s.node x).log.get j = some f →
      (s.node x).log.snapshotIndex < j ∧ (s.whole x)[j - 1]? = some f := by
    intro x j f hget
    have hlt : (s.node x).log.snapshotIndex < j := by
      by_contra hle
      rw [Holds.get_of_le (by omega)] at hget
      cases hget
    exact ⟨hlt, ((htracks.server x).agrees.holds.get hlt).symm.trans hget⟩
  have hat : ∀ {x j f}, (s.whole x)[j - 1]? = some f → 0 < j →
      j ≤ (s.whole x).length ∧ termOf (s.whole x) j = f.term := by
    intro x j f hget hpos
    obtain ⟨hlen, -⟩ := List.getElem?_eq_some_iff.mp hget
    refine ⟨by omega, ?_⟩
    rw [show j = j - 1 + 1 by omega]
    exact termOf_eq_of_getElem? hget
  obtain ⟨hvi, hve⟩ := hretained hv
  obtain ⟨-, hwe⟩ := hretained hw
  obtain ⟨hvlen, hvterm⟩ := hat hve (by omega)
  obtain ⟨hwlen, hwterm⟩ := hat hwe (by omega)
  have htake : (s.whole v).take i = (s.whole w).take i :=
    ((htracks.server v).rooted htracks.inv).matches ((htracks.server w).rooted htracks.inv) i
      hvlen hwlen <|
        calc termOf (s.whole v) i = e.term := hvterm
          _ = e'.term := hterm
          _ = termOf (s.whole w) i := hwterm.symm
  have hsame : ∀ j < i, (s.whole v)[j]? = (s.whole w)[j]? := fun j hj => by
    have hj' := congrArg (·[j]?) htake
    simpa [List.getElem?_take, hj] using hj'
  refine ⟨?_, fun j hj f f' hf hf' => ?_, fun f hlt hf => ?_⟩
  · have heq := (hsame (i - 1) (by omega)).symm.trans hve
    rw [hwe] at heq
    rw [Option.some.inj heq]
  · obtain ⟨hvj, hfe⟩ := hretained hf
    obtain ⟨-, hfe'⟩ := hretained hf'
    have heq := (hsame (j - 1) (by omega)).symm.trans hfe
    rw [hfe'] at heq
    rw [Option.some.inj heq]
    exact ⟨rfl, rfl⟩
  · obtain ⟨hvj, hfe⟩ := hretained hf
    have hholds := (htracks.server w).agrees.holds
    rw [hholds.snapshotTerm]
    exact ((hat ((hsame _ (by omega)).symm.trans hfe) (by omega)).2).symm

/-- Three servers on their first run. -/
def trioCluster (machine : σ) : Cluster σ :=
  .boot {1, 2, 3} (fun _ => ⟨[], 0⟩) others fun _ => machine

/-- Server 1 wins term 1 with the vote of server 2, and gives it an entry. -/
def oneEntry : List (Event σ) :=
  [.election (.startElection 1), .election (.callVote 1 2), .election (.requestVote 0 1000),
    .election (.voteReply 0 0), .propose 1 [7], .replicateToAll 1, .replicateTo 1 2,
    .appendEntries 0 1000, .appendReply 0 0]

lemma fixed_oneEntry : ∀ e ∈ (oneEntry : List (Event σ)), FixedEvent e := by
  have hplain : ¬ IsConfChange [7] := by
    rintro ⟨cc, hcc⟩
    cases hcc
  simp [oneEntry, FixedEvent, hplain]

/-- Server 1 commits [7] and [8] with server 2, which compacts them behind [9] and adds [6] in
term 2. -/
def twoTerms : List (Event σ) :=
  [.election (.startElection 1), .election (.callVote 1 2), .election (.requestVote 0 1000),
    .election (.voteReply 0 0), .propose 1 [7], .propose 1 [8], .replicateToAll 1,
    .replicateTo 1 2, .appendEntries 0 1000, .appendReply 0 0, .propose 1 [9],
    .replicateToAll 1, .replicateTo 1 2, .appendEntries 1 1000, .appendReply 1 1, .compact 2,
    .election (.startElection 2), .election (.callVote 2 3), .election (.requestVote 1 0),
    .election (.voteReply 1 1), .propose 2 [6], .replicateToAll 2, .replicateTo 2 1,
    .appendEntries 2 3000, .appendReply 2 2]

lemma fixed_twoTerms : ∀ e ∈ (twoTerms : List (Event σ)), FixedEvent e := by
  have hplain : ∀ b ∈ ([6, 7, 8, 9] : Bytes), ¬ IsConfChange [b] := by
    rintro b hb ⟨cc, hcc⟩
    simp only [List.mem_cons, List.not_mem_nil, or_false] at hb
    rcases hb with rfl | rfl | rfl | rfl <;> cases hcc
  simp [twoTerms, FixedEvent, hplain]

/-- Server 1 retains all four entries, and server 2 the last two. -/
theorem logs_match_twoTerms : ∃ s,
    runOf? (Cluster.step? noCallbacks) (trioCluster ()) twoTerms = some s ∧
    (s.node 1).log.entries = [⟨1, 1, [7]⟩, ⟨2, 1, [8]⟩, ⟨3, 1, [9]⟩,
      ⟨4, 2, [6]⟩] ∧
    (s.node 2).log.snapshotIndex = 2 ∧ (s.node 2).log.get 4 = some ⟨4, 2, [6]⟩ ∧
    (∀ j < 4, ∀ f f', (s.node 1).log.get j = some f → (s.node 2).log.get j = some f' →
      f.term = f'.term ∧ f.command = f'.command) ∧
    ∀ f, (s.node 1).log.get 2 = some f → f.term = (s.node 2).log.snapshotTerm := by
  obtain ⟨s, hs, hentries, hv, hw, hsnap⟩ := exists_of_any
    (x := runOf? (Cluster.step? noCallbacks) (trioCluster ()) twoTerms)
    (P := fun s => (s.node 1).log.entries =
        [⟨1, 1, [7]⟩, ⟨2, 1, [8]⟩, ⟨3, 1, [9]⟩, ⟨4, 2, [6]⟩] ∧
      (s.node 1).log.get 4 = some ⟨4, 2, [6]⟩ ∧
      (s.node 2).log.get 4 = some ⟨4, 2, [6]⟩ ∧
      (s.node 2).log.snapshotIndex = 2) (by decide +kernel)
  have htotal : noCallbacks.Total := fun _ _ _ => ⟨[], rfl⟩
  obtain ⟨-, hlower, hboundary⟩ := logs_match htotal (fun v _ => keys_others v)
    (reach_runOf?_of fixed_twoTerms hs) hv hw rfl
  rw [hsnap] at hboundary
  exact ⟨s, hs, hentries, hsnap, hw, hlower, fun f hf => hboundary f (by decide) hf⟩

/-- Callbacks that also write down what they are handed to apply. -/
def traced (cb : Callbacks σ) : Callbacks (σ × List (ℕ × Bytes)) where
  apply := fun m index command =>
    (((cb.apply m.1 index command).1, m.2 ++ [(index, command)]), (cb.apply m.1 index command).2)
  snapshot := fun m => cb.snapshot m.1
  restore := fun m data => (cb.restore m.1 data, m.2)

/-- What is written down stays when a node starts again. -/
def SameTrace (m m' : σ × List (ℕ × Bytes)) : Prop := m'.2 = m.2

/-- What was handed to the callback was committed at its index. -/
def Handed (a : History) (m : σ × List (ℕ × Bytes)) : Prop :=
  ∀ i c, (i, c) ∈ m.2 → 0 < i ∧ ∃ u l e, Committed a u l i ∧
    l[i - 1]? = some e ∧ e.command = c

lemma watches_handed (base : Finset NodeId) (cb : Callbacks σ) :
    Watches base (traced cb) Handed where
  goes := fun hinv hgoes h i c hmem => by
    obtain ⟨hpos, u, l, e, hcommitted, he⟩ := h i c hmem
    exact ⟨hpos, u, l, e, hcommitted.mono hinv hgoes le_rfl, he⟩
  execute := fun {a u l i j e m} _ hcommitted hlt hget hindex h k c hmem => by
    unfold execute at hmem
    split at hmem
    · rcases List.mem_append.mp hmem with hold | hnew
      · exact h k c hold
      · simp only [List.mem_singleton, Prod.mk.injEq] at hnew
        obtain ⟨rfl, rfl⟩ := hnew
        rw [hindex]
        exact ⟨Nat.succ_pos j, u, l, e, hcommitted.le hlt, hget, rfl⟩
    · exact h k c hmem
  restore := fun _ h => h

/-- **State machine safety**: what nodes hand to the apply callback at one index, whichever
nodes and whenever, is one command. -/
theorem one_command {s : Cluster (σ × List (ℕ × Bytes))} (hcb : cb.Total)
    (hpeers : ∀ v ∈ base, (peers v).keys = base.erase v)
    (hrun : Reach (StepOf? (Cluster.step? (traced cb)))
      (fun s e => FixedEvent e ∧ KeepsMachine SameTrace s e)
      (Cluster.boot base own peers fun v => (machine v, [])) s)
    {v w : NodeId} {i : ℕ} {c c' : Bytes} (hv : (i, c) ∈ (s.node v).machine.2)
    (hw : (i, c') ∈ (s.node w).machine.2) : c = c' := by
  have htotal : (traced cb).Total := fun m j d => hcb m.1 j d
  have hkept : ∀ {a : History} {m m' : σ × List (ℕ × Bytes)}, SameTrace m m' →
      Handed a m → Handed a m' := fun hsame h j d hmem => h j d (hsame ▸ hmem)
  obtain ⟨a, htracks, -⟩ := tracks_fixed htotal (watches_handed base cb) hkept hpeers
    (fun v j d hmem => by cases hmem) hrun
  obtain ⟨hpos, u, l, e, hl, he, rfl⟩ := (htracks.server v).agrees.machine i c hv
  obtain ⟨-, u', l', e', hl', he', rfl⟩ := (htracks.server w).agrees.machine i c' hw
  have hat := hl.getElem?_eq htracks.inv hl' hpos
  rw [he, he'] at hat
  rw [Option.some.inj hat]

theorem one_command_trio : ∃ s,
    runOf? (Cluster.step? (traced noCallbacks)) (trioCluster ((), []))
      (oneEntry ++ [.replicateToAll 1, .replicateTo 1 2, .appendEntries 1 2000]) = some s ∧
    (1, [7]) ∈ (s.node 1).machine.2 ∧ ∀ c, (1, c) ∈ (s.node 2).machine.2 → [7] = c := by
  have happlied : ((runOf? (Cluster.step? (traced noCallbacks)) (trioCluster ((), []))
      (oneEntry ++ [.replicateToAll 1, .replicateTo 1 2, .appendEntries 1 2000])).map fun s =>
      ((s.node 1).machine.2, (s.node 2).machine.2)) = some ([(1, [7])], [(1, [7])]) := by
    decide
  obtain ⟨s, hs, hget⟩ := Option.map_eq_some_iff.mp happlied
  obtain ⟨hv, -⟩ := Prod.mk.inj hget
  have hin : (1, [7]) ∈ (s.node 1).machine.2 := by
    rw [hv]
    exact List.mem_singleton.mpr rfl
  have hok : ∀ e ∈ oneEntry ++ [.replicateToAll 1, .replicateTo 1 2, .appendEntries 1 2000],
      FixedEvent e ∧ ∀ s, KeepsMachine (@SameTrace Unit) s e := by
    intro e he
    rcases List.mem_append.mp he with hold | hnew
    · refine ⟨fixed_oneEntry e hold, fun s => ?_⟩
      simp only [oneEntry, List.mem_cons, List.not_mem_nil, or_false] at hold
      rcases hold with rfl | rfl | rfl | rfl | rfl | rfl | rfl | rfl | rfl <;> trivial
    · simp only [List.mem_cons, List.not_mem_nil, or_false] at hnew
      rcases hnew with rfl | rfl | rfl <;> exact ⟨trivial, fun _ => trivial⟩
  refine ⟨s, hs, hin, fun c hc => ?_⟩
  have htotal : noCallbacks.Total := fun _ _ _ => ⟨[], rfl⟩
  exact one_command htotal (fun v _ => keys_others v)
    ((reach_runOf?_of hok hs).mono fun s e h => ⟨h.1, h.2 s⟩) hin hc

end DistDB.ClusterModel
