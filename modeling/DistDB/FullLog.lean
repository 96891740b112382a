import DistDB.RaftLog
import DistDB.TermLog

/-!
The whole log that a `RaftLog` is what is left of: the entries it has compacted away, which
exist nowhere any more, and the ones it still holds (`Holds`).

Every operation is described by what it does to the whole log. Merging the entries of a
request is described for logs that match: equal terms at an index mean equal logs up to it.
-/

namespace DistDB.FullLog

open TermLog

/-- The entry at each position has the index of that position. -/
def Indexed (l : List LogEntry) : Prop := ∀ i e, l[i]? = some e → e.index = i + 1

instance : HasTerm LogEntry := ⟨LogEntry.term⟩

/-- `log` is what is left of `l` behind its snapshot boundary. -/
structure Holds (log : RaftLog) (l : List LogEntry) : Prop where
  indexed : Indexed l
  snapshot_le : log.snapshotIndex ≤ l.length
  snapshotTerm : log.snapshotTerm = termOf l log.snapshotIndex
  entries : log.entries = l.drop log.snapshotIndex

lemma Indexed.take {l : List LogEntry} (h : Indexed l) (k : ℕ) : Indexed (l.take k) := by
  intro i e he
  rw [List.getElem?_take] at he
  split at he
  · exact h i e he
  · cases he

lemma Indexed.append {l m : List LogEntry} (hl : Indexed l)
    (hm : ∀ i e, m[i]? = some e → e.index = l.length + i + 1) : Indexed (l ++ m) := by
  intro i e he
  rcases Nat.lt_or_ge i l.length with hi | hi
  · rw [List.getElem?_append_left hi] at he
    exact hl i e he
  · rw [List.getElem?_append_right hi] at he
    have := hm _ e he
    omega

lemma Indexed.concat {l : List LogEntry} (h : Indexed l) (term : ℕ) (command : Bytes) :
    Indexed (l ++ [⟨l.length + 1, term, command⟩]) := by
  refine h.append fun i e he => ?_
  obtain ⟨hi, rfl⟩ := List.getElem?_eq_some_iff.mp he
  obtain rfl : i = 0 := by simpa using hi
  rfl

lemma Indexed.drop {l : List LogEntry} (h : Indexed l) {k i : ℕ} {e : LogEntry}
    (he : (l.drop k)[i]? = some e) : e.index = k + i + 1 := by
  rw [List.getElem?_drop] at he
  exact h _ e he

namespace Holds

variable {log : RaftLog} {l : List LogEntry}

lemma length_entries (h : Holds log l) : log.entries.length = l.length - log.snapshotIndex := by
  rw [h.entries, List.length_drop]

lemma lastIndex (h : Holds log l) : log.lastIndex = l.length := by
  unfold RaftLog.lastIndex
  have hlen := h.snapshot_le
  cases hlast : log.entries.getLast? with
  | none =>
    have hnil := List.getLast?_eq_none_iff.mp hlast
    have := h.length_entries
    rw [hnil] at this
    simp only [List.length_nil] at this ⊢
    omega
  | some e =>
    rw [h.entries, List.getLast?_eq_getElem?] at hlast
    have hidx := h.indexed.drop hlast
    have hlt : (l.drop log.snapshotIndex).length - 1 < (l.drop log.snapshotIndex).length :=
      (List.getElem?_eq_some_iff.mp hlast).1
    rw [List.length_drop] at hidx hlt
    simp only
    omega

lemma get (h : Holds log l) {i : ℕ} (hi : log.snapshotIndex < i) : log.get i = l[i - 1]? := by
  unfold RaftLog.get RaftLog.entryAt
  rw [h.lastIndex, h.entries, List.getElem?_drop]
  split
  · rw [List.getElem?_eq_none (by omega)]
  · congr 1; omega

lemma filterMap_get (h : Holds log l) {k : ℕ} (hk : log.snapshotIndex ≤ k) :
    (List.range' (k + 1) (log.lastIndex - k)).filterMap log.get = l.drop k := by
  obtain ⟨r, hr⟩ : ∃ r, log.lastIndex - k = r := ⟨_, rfl⟩
  rw [h.lastIndex] at hr
  rw [h.lastIndex, hr]
  induction r generalizing k with
  | zero =>
    rw [List.drop_eq_nil_of_le (by omega)]
    rfl
  | succ r ih =>
    have hlt : k < l.length := by omega
    have hget : log.get (k + 1) = some l[k] := by
      rw [h.get (by omega), Nat.add_sub_cancel, List.getElem?_eq_getElem hlt]
    calc (List.range' (k + 1) (r + 1)).filterMap log.get
        = l[k] :: (List.range' (k + 1 + 1) r).filterMap log.get := by
            rw [List.range'_succ, List.filterMap_cons, hget]
      _ = l[k] :: l.drop (k + 1) := by rw [ih (by omega) (by omega)]
      _ = l.drop k := (List.drop_eq_getElem_cons hlt).symm

lemma get_of_le {i : ℕ} (hi : i ≤ log.snapshotIndex) : log.get i = none := by
  unfold RaftLog.get
  rw [if_pos (.inl hi)]

lemma termAt (h : Holds log l) {i : ℕ} (hi : log.snapshotIndex ≤ i) :
    log.termAt i = termOf l i := by
  unfold RaftLog.termAt RaftLog.entryAt
  rw [h.lastIndex, h.entries, List.getElem?_drop]
  split_ifs with heq hout
  · rw [h.snapshotTerm, heq]
  · rw [termOf_of_length_lt (by omega)]
  · obtain ⟨i, rfl⟩ : ∃ k, i = k + 1 := ⟨i - 1, by omega⟩
    rw [termOf]
    congr 2; omega

lemma termAt_of_lt {i : ℕ} (hi : i < log.snapshotIndex) : log.termAt i = 0 := by
  unfold RaftLog.termAt
  rw [if_neg (by omega), if_pos (.inl hi)]

lemma lastTerm (h : Holds log l) : log.lastTerm = termOf l l.length := by
  have hlen := h.snapshot_le
  unfold RaftLog.lastTerm
  cases hlast : log.entries.getLast? with
  | none =>
    have hnil := List.getLast?_eq_none_iff.mp hlast
    have := h.length_entries
    rw [hnil] at this
    simp only [List.length_nil] at this ⊢
    rw [h.snapshotTerm, show l.length = log.snapshotIndex by omega]
  | some e =>
    rw [h.entries, List.getLast?_eq_getElem?] at hlast
    have hlt := (List.getElem?_eq_some_iff.mp hlast).1
    rw [List.length_drop] at hlt
    rw [List.getElem?_drop, List.length_drop,
      show log.snapshotIndex + (l.length - log.snapshotIndex - 1) = l.length - 1 by omega] at hlast
    rw [show l.length = l.length - 1 + 1 by omega, termOf_eq_of_getElem? hlast]
    rfl

/-! ### Writing -/

lemma empty : Holds .empty [] := ⟨fun i e h => by simp at h, le_rfl, rfl, rfl⟩

lemma setAppliedIndex (h : Holds log l) (i : ℕ) : Holds (log.setAppliedIndex i) l :=
  ⟨h.indexed, h.snapshot_le, h.snapshotTerm, h.entries⟩

lemma append (h : Holds log l) (term : ℕ) (command : Bytes) :
    Holds (log.append term command).1 (l ++ [⟨l.length + 1, term, command⟩]) where
  indexed := h.indexed.concat term command
  snapshot_le := h.snapshot_le.trans (by simp)
  snapshotTerm := h.snapshotTerm.trans (termOf_append_left h.snapshot_le).symm
  entries := by
    show log.entries ++ [⟨log.lastIndex + 1, term, command⟩] = _
    rw [h.lastIndex, h.entries, ← List.drop_append_of_le_length h.snapshot_le]
    rfl

lemma splice (h : Holds log l) {k : ℕ} (hlo : log.snapshotIndex ≤ k) (hhi : k ≤ l.length)
    {e : LogEntry} (he : e.index = k + 1) :
    Holds { log with entries := log.entries.take (k - log.snapshotIndex) ++ [e] }
      (l.take k ++ [e]) where
  indexed := by
    refine (h.indexed.take k).append fun i e' he' => ?_
    obtain ⟨hi, rfl⟩ := List.getElem?_eq_some_iff.mp he'
    obtain rfl : i = 0 := by simpa using hi
    simpa [Nat.min_eq_left hhi] using he
  snapshot_le := by simp; omega
  snapshotTerm := by
    show log.snapshotTerm = _
    rw [termOf_append_left (by simp; omega), termOf_take hlo, h.snapshotTerm]
  entries := by
    show _ = (l.take k ++ [e]).drop log.snapshotIndex
    rw [List.drop_append_of_le_length (by simp; omega), h.entries, List.drop_take]

lemma put (h : Holds log l) {idx : ℕ} (hpos : 0 < idx) (hidx : idx ≤ l.length + 1)
    (e : LogEntry) : (log.put idx e).snapshotIndex = log.snapshotIndex ∧
    Holds (log.put idx e)
      (if idx ≤ log.snapshotIndex ∨ (idx ≤ l.length ∧ termOf l idx = e.term) then l
      else l.take (idx - 1) ++ [{ e with index := idx }]) := by
  unfold RaftLog.put RaftLog.entryAt
  rcases Nat.lt_or_ge log.snapshotIndex idx with hsnap | hsnap
  case inr => simpa [hsnap] using h
  have hpos' : (l.drop log.snapshotIndex)[idx - log.snapshotIndex - 1]? = l[idx - 1]? := by
    rw [List.getElem?_drop]; congr 1; omega
  have hcut : idx - log.snapshotIndex - 1 = idx - 1 - log.snapshotIndex := by omega
  rw [if_neg (by omega), h.entries]
  dsimp only
  rw [hpos']
  cases hold : l[idx - 1]? with
  | none =>
    have hlen := List.getElem?_eq_none_iff.mp hold
    have hsplice := h.splice (k := idx - 1) (by omega) (by omega) (e := { e with index := idx })
      (by show idx = _; omega)
    rw [if_neg (by omega)]
    refine ⟨rfl, ?_⟩
    rwa [h.entries, List.take_of_length_le (by simp; omega)] at hsplice
  | some old =>
    have hlt := (List.getElem?_eq_some_iff.mp hold).1
    have hterm : termOf l idx = old.term := by
      rw [show idx = idx - 1 + 1 by omega]; exact termOf_eq_of_getElem? hold
    simp only [hterm]
    by_cases heq : old.term = e.term
    · rw [if_pos heq, if_pos (.inr ⟨by omega, heq⟩)]
      exact ⟨rfl, h⟩
    · rw [if_neg heq, if_neg (by rintro (h | ⟨-, h⟩); exacts [by omega, heq h])]
      refine ⟨rfl, ?_⟩
      have hsplice := h.splice (k := idx - 1) (by omega) (by omega) (e := { e with index := idx })
        (by show idx = _; omega)
      rwa [h.entries, ← hcut] at hsplice

/-- Dropping everything up to an index, where the whole log up to it is taken to be `s`. -/
lemma compactTo (h : Holds log l) {s : List LogEntry} (hs : Indexed s)
    (hlt : log.snapshotIndex < s.length) :
    Holds (log.compactTo s.length (termOf s s.length))
      (if s.length ≤ l.length ∧ termOf l s.length = termOf s s.length then s ++ l.drop s.length
      else s) := by
  unfold RaftLog.compactTo
  rw [if_neg (by omega), h.lastIndex, h.termAt hlt.le]
  split_ifs with hkeep
  · exact {
      indexed := hs.append fun i e he => h.indexed.drop he
      snapshot_le := by simp
      snapshotTerm := (termOf_append_left le_rfl).symm
      entries := by
        show log.entries.drop (s.length - log.snapshotIndex) = _
        rw [h.entries, List.drop_drop, List.drop_left]
        congr 1; omega }
  · exact ⟨hs, le_rfl, rfl, by simp⟩

lemma compactTo_any (h : Holds log l) (i term : ℕ) : ∃ l', Holds (log.compactTo i term) l' := by
  rcases Nat.lt_or_ge log.snapshotIndex i with hlt | hle
  · -- nothing is known of what is dropped: any entries with that last term will do
    let s := (List.range i).map fun j => (⟨j + 1, term, []⟩ : LogEntry)
    have hlen : s.length = i := by simp [s]
    have hs : Indexed s := by
      intro j e he
      obtain ⟨j', hj', rfl⟩ := List.getElem?_map .. ▸ he |> Option.map_eq_some_iff.mp
      obtain ⟨-, rfl⟩ := List.getElem?_eq_some_iff.mp hj'
      simp
    have hterm : termOf s s.length = term := by
      obtain ⟨k, rfl⟩ : ∃ k, i = k + 1 := ⟨i - 1, by omega⟩
      rw [hlen, termOf]
      simp [s, HasTerm.term]
    have hcompact := h.compactTo hs (hlen ▸ hlt)
    rw [hterm, hlen] at hcompact
    exact ⟨_, hcompact⟩
  · unfold RaftLog.compactTo
    rw [if_pos hle]
    exact ⟨l, h⟩

lemma compactTo_of_le {i term : ℕ} (hle : i ≤ log.snapshotIndex) :
    log.compactTo i term = log := by
  unfold RaftLog.compactTo
  rw [if_pos hle]

/-- Dropping everything up to an index of the log itself loses nothing of the whole log. -/
lemma compactTo_termAt (h : Holds log l) {i : ℕ} (hlo : log.snapshotIndex ≤ i)
    (hhi : i ≤ l.length) :
    Holds (log.compactTo i (log.termAt i)) l ∧
    (log.compactTo i (log.termAt i)).snapshotIndex = i ∧
    (log.compactTo i (log.termAt i)).appliedIndex = log.appliedIndex := by
  rcases Nat.lt_or_eq_of_le hlo with hlt | hsame
  · have hlen : (l.take i).length = i := by simpa using hhi
    have hcompact := h.compactTo (h.indexed.take i) (by rwa [hlen])
    rw [hlen, termOf_take le_rfl, if_pos ⟨hhi, rfl⟩, List.take_append_drop, ← h.termAt hlo]
      at hcompact
    refine ⟨hcompact, ?_, ?_⟩ <;> unfold RaftLog.compactTo <;> rw [if_neg (by omega)]
  · rw [compactTo_of_le hsame.ge]
    exact ⟨h, hsame, rfl⟩

end Holds

variable {log : RaftLog} {l m : List LogEntry}

lemma take_of_prefix_eq {k : ℕ} (hk : k ≤ m.length) (h : l.take k = m.take k) :
    k ≤ l.length := by
  have := congrArg List.length h
  simp only [List.length_take] at this
  omega

namespace Holds

lemma putAll (h : Holds log l) {idx : ℕ} (hpos : 0 < idx) (hidx : idx ≤ l.length + 1)
    (es : List LogEntry) :
    (log.putAll idx es).snapshotIndex = log.snapshotIndex ∧ ∃ l', Holds
    (log.putAll idx es) l' := by
  induction es generalizing log l idx with
  | nil => exact ⟨rfl, l, h⟩
  | cons e es ih =>
    rw [RaftLog.putAll]
    obtain ⟨hsnap, hput⟩ := h.put hpos hidx e
    have hlen : idx + 1 ≤ (if idx ≤ log.snapshotIndex ∨
      (idx ≤ l.length ∧ termOf l idx = e.term) then l
        else l.take (idx - 1) ++ [{ e with index := idx }]).length + 1 := by
      have := h.snapshot_le
      split_ifs with hkeep
      · omega
      · simp; omega
    obtain ⟨hsnap', hall⟩ := ih hput (Nat.succ_pos idx) hlen
    exact ⟨hsnap'.trans hsnap, hall⟩

lemma putAll_merge (h : Holds log l) (hm : Indexed m) (hmatch : Matches l m)
    (hsnap : ∀ j, j ≤ log.snapshotIndex → j ≤ m.length → l.take j = m.take j) {k : ℕ}
    (hk : k ≤ m.length) (htake : l.take k = m.take k) :
    (log.putAll (k + 1) (m.drop k)).snapshotIndex = log.snapshotIndex ∧
      Holds (log.putAll (k + 1) (m.drop k)) (merge l m) := by
  obtain ⟨es, hes⟩ : ∃ es, m.drop k = es := ⟨_, rfl⟩
  rw [hes]
  induction es generalizing log l k with
  | nil =>
    have hkm : m.length ≤ k := List.drop_eq_nil_iff.mp hes
    rw [List.take_of_length_le hkm] at htake
    rw [merge, if_pos (htake ▸ List.take_prefix k l)]
    exact ⟨rfl, h⟩
  | cons e es ih =>
    have hlt : k < m.length := by
      by_contra hge
      rw [List.drop_eq_nil_iff.mpr (by omega)] at hes
      cases hes
    have hget : m[k]? = some e := by
      have := congrArg (·[0]?) hes
      simpa using this
    have hrest : m.drop (k + 1) = es := by
      rw [← List.drop_drop, hes]; rfl
    have hindex : { e with index := k + 1 } = e := by
      rw [← hm k e hget]
    have hkl := take_of_prefix_eq hlt.le htake
    obtain ⟨hsnapIndex, hput⟩ := h.put (Nat.succ_pos k) (by omega) e
    rw [RaftLog.putAll]
    rw [hindex] at hput
    by_cases hkeep : k + 1 ≤ log.snapshotIndex ∨
      (k + 1 ≤ l.length ∧ termOf l (k + 1) = e.term)
    · rw [if_pos hkeep] at hput
      have htake' : l.take (k + 1) = m.take (k + 1) := by
        rcases hkeep with hle | ⟨hle, hterm⟩
        · exact hsnap _ hle hlt
        · exact hmatch _ hle hlt (hterm.trans (termOf_eq_of_getElem? hget).symm)
      obtain ⟨hsnap', hall⟩ := ih hput hmatch
        (fun j hj => hsnap j (hsnapIndex ▸ hj)) hlt htake' hrest
      exact ⟨hsnap'.trans hsnapIndex, hall⟩
    · -- the log is cut here: from now on it is a prefix of `m`
      rw [if_neg hkeep, Nat.succ_sub_one, htake] at hput
      have hnew : m.take k ++ [e] = m.take (k + 1) := by
        rw [List.take_add_one, hget]; rfl
      rw [hnew] at hput
      have hnot : ¬ m <+: l := by
        intro hml
        have hlen := hml.length_le
        exact hkeep (.inr ⟨by omega,
          (termOf_of_isPrefix hml (by omega)).trans (termOf_eq_of_getElem? hget)⟩)
      have hmerge : merge (m.take (k + 1)) m = merge l m := by
        rw [merge, merge, if_neg hnot]
        split_ifs with hfull
        · exact hfull.eq_of_length_le (by simp) |>.symm
        · rfl
      obtain ⟨hsnap', hall⟩ := ih hput
        (fun j hj _ _ => by rw [List.take_take, Nat.min_eq_left (by simp at hj; omega)])
        (fun j hj _ => by rw [List.take_take, Nat.min_eq_left (by omega)]) hlt
        (by rw [List.take_take, Nat.min_self]) hrest
      exact ⟨hsnap'.trans hsnapIndex, hmerge ▸ hall⟩

/-- What the check of `AppendEntriesFrom` establishes, for a request whose entries have
positive terms. -/
lemma appendEntriesFrom_some {log' : RaftLog} {prev prevTerm : ℕ} {es : List LogEntry}
    (h : Holds log l) (hterm : 0 < prev → 0 < prevTerm)
    (hsome : log.appendEntriesFrom prev prevTerm es = some log') :
    log' = log.putAll (prev + 1) es ∧
      (prev = 0 ∨ (log.snapshotIndex ≤ prev ∧ prev ≤ l.length ∧
        termOf l prev = prevTerm)) := by
  unfold RaftLog.appendEntriesFrom at hsome
  split at hsome
  · cases hsome
  · rename_i hcheck
    cases hsome
    refine ⟨rfl, ?_⟩
    by_cases hprev : prev = 0
    · exact .inl hprev
    · have heq : log.termAt prev = prevTerm := by
        by_contra hne
        exact hcheck ⟨by omega, hne⟩
      have hpos := hterm (by omega)
      have hge : log.snapshotIndex ≤ prev := by
        by_contra hlt
        rw [termAt_of_lt (by omega)] at heq
        omega
      rw [h.termAt hge] at heq
      have hle : prev ≤ l.length := by
        by_contra hlt
        rw [termOf_of_length_lt (by omega)] at heq
        omega
      exact .inr ⟨hge, hle, heq⟩

end Holds

end DistDB.FullLog
