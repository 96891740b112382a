import DistDB.FullLog
import DistDB.Runs

/-!
Sequences of calls on a log.

Any sequence of calls leaves entries without a gap, and a true answer of `AppendEntriesFrom`
means what it says, as long as no call asks for the term zero at an index that the log does
not hold: `TermAt` answers zero there (`calls_sound`).

A log that also compacts behaves like one that never does, above its boundary: both are what
is left of one whole log (`compaction_invisible`).
-/

namespace DistDB.LogCalls

open FullLog TermLog

/-! ### Entries over a whole log -/

/-- One entry put over a whole log of which everything up to `snap` is compacted away. -/
def splice (snap : ℕ) (l : List LogEntry) (idx : ℕ) (e : LogEntry) : List LogEntry :=
  if idx ≤ snap ∨ (idx ≤ l.length ∧ termOf l idx = e.term) then l
  else l.take (idx - 1) ++ [{ e with index := idx }]

/-- Entries put over a whole log, the first of them at `idx`. -/
def spliceAll (snap : ℕ) (l : List LogEntry) (idx : ℕ) : List LogEntry → List LogEntry
  | [] => l
  | e :: es => spliceAll snap (splice snap l idx e) (idx + 1) es

variable {log : RaftLog} {l : List LogEntry} {snap idx : ℕ}

lemma length_splice (hsnap : snap ≤ l.length) (hpos : 0 < idx) (hidx : idx ≤ l.length + 1)
    (e : LogEntry) : snap ≤ (splice snap l idx e).length ∧
      idx + 1 ≤ (splice snap l idx e).length + 1 := by
  unfold splice
  split_ifs with hkeep
  · omega
  · simp only [List.length_append, List.length_take, List.length_singleton]
    omega

lemma take_splice (hidx : idx ≤ l.length + 1) (e : LogEntry) :
    (splice snap l idx e).take (idx - 1) = l.take (idx - 1) := by
  unfold splice
  split_ifs
  · rfl
  · rw [List.take_append_of_le_length (by rw [List.length_take]; omega), List.take_take,
      Nat.min_self]

lemma getElem?_splice (hpos : 0 < idx) (hidx : idx ≤ l.length + 1) (hsnap : snap < idx)
    (e : LogEntry) :
    (splice snap l idx e)[idx - 1]? = some { e with index := idx } ∨
      ∃ old, old.term = e.term ∧ l[idx - 1]? = some old ∧
        (splice snap l idx e)[idx - 1]? = some old := by
  unfold splice
  split_ifs with hkeep
  · obtain ⟨hle, hterm⟩ := hkeep.resolve_left (by omega)
    obtain ⟨old, hold⟩ : ∃ old, l[idx - 1]? = some old :=
      ⟨_, List.getElem?_eq_getElem (show idx - 1 < l.length by omega)⟩
    refine .inr ⟨old, ?_, hold, hold⟩
    have hat := termOf_eq_of_getElem? hold
    rw [Nat.sub_add_cancel hpos, hterm] at hat
    exact hat.symm
  · refine .inl ?_
    rw [List.getElem?_append_right (by simp), List.length_take, Nat.min_eq_left (by omega),
      Nat.sub_self]
    rfl

lemma getElem?_splice_behind (hidx : idx ≤ l.length + 1) {e old : LogEntry} {j : ℕ}
    (hj : idx ≤ j) (h : (splice snap l idx e)[j]? = some old) : l[j]? = some old := by
  unfold splice at h
  split_ifs at h
  · exact h
  · have hlt := (List.getElem?_eq_some_iff.mp h).1
    simp only [List.length_append, List.length_take, List.length_singleton] at hlt
    omega

lemma take_spliceAll (hsnap : snap ≤ l.length) (hpos : 0 < idx) (hidx : idx ≤ l.length + 1)
    (es : List LogEntry) : (spliceAll snap l idx es).take (idx - 1) = l.take (idx - 1) := by
  induction es generalizing l idx with
  | nil => rfl
  | cons e es ih =>
    have hstep := length_splice hsnap hpos hidx e
    have htake := congrArg (List.take (idx - 1)) (ih hstep.1 (Nat.succ_pos idx) hstep.2)
    rw [List.take_take, List.take_take, Nat.min_eq_left (by omega)] at htake
    rw [spliceAll, htake, take_splice hidx]

/-- **What a batch leaves**: each of its entries behind the boundary, or the one of the same
term that was there. -/
lemma getElem?_spliceAll (hsnap : snap ≤ l.length) (hpos : 0 < idx) (hidx : idx ≤ l.length + 1)
    {es : List LogEntry} {i : ℕ} {e : LogEntry} (he : es[i]? = some e) (hi : snap < idx + i) :
    (spliceAll snap l idx es)[idx + i - 1]? = some { e with index := idx + i } ∨
      ∃ old, old.term = e.term ∧ l[idx + i - 1]? = some old ∧
        (spliceAll snap l idx es)[idx + i - 1]? = some old := by
  induction es generalizing l idx i with
  | nil => simp at he
  | cons a es ih =>
    have hstep := length_splice hsnap hpos hidx a
    rw [spliceAll]
    cases i with
    | zero =>
      obtain rfl : a = e := by simpa using he
      have hsame : (spliceAll snap (splice snap l idx a) (idx + 1) es)[idx - 1]? =
          (splice snap l idx a)[idx - 1]? := by
        have htake := take_spliceAll hstep.1 (Nat.succ_pos idx) hstep.2 es
        have hget := congrArg (·[idx - 1]?) htake
        simpa [List.getElem?_take, show idx - 1 < idx by omega] using hget
      simp only [Nat.add_zero] at hi ⊢
      rw [hsame]
      exact getElem?_splice hpos hidx hi a
    | succ i =>
      have hrest := ih hstep.1 (Nat.succ_pos idx) hstep.2 (i := i) (by simpa using he) (by omega)
      rw [show idx + 1 + i = idx + (i + 1) by omega] at hrest
      rcases hrest with hnew | ⟨old, hterm, hold, hall⟩
      · exact .inl hnew
      · exact .inr ⟨old, hterm, getElem?_splice_behind hidx (by omega) hold, hall⟩

lemma spliceAll_congr {snap' : ℕ} (hle : snap' ≤ snap) (hsnap : snap ≤ l.length)
    (hpos : 0 < idx) (hidx : idx ≤ l.length + 1) {es : List LogEntry}
    (hagree : ∀ i e, es[i]? = some e → snap' < idx + i → idx + i ≤ snap →
      termOf l (idx + i) = e.term) :
    spliceAll snap l idx es = spliceAll snap' l idx es := by
  induction es generalizing l idx with
  | nil => rfl
  | cons e es ih =>
    have hsame : splice snap l idx e = splice snap' l idx e := by
      have hterm := hagree 0 e rfl
      unfold splice
      by_cases hbehind : idx ≤ snap
      · rw [if_pos (.inl hbehind)]
        by_cases hbehind' : idx ≤ snap'
        · rw [if_pos (.inl hbehind')]
        · rw [if_pos (.inr ⟨by omega, hterm (by omega) hbehind⟩)]
      · simp only [hbehind, show ¬ idx ≤ snap' by omega, false_or]
    have hstep := length_splice hsnap hpos hidx e
    rw [spliceAll, spliceAll, ← hsame]
    refine ih hstep.1 (Nat.succ_pos idx) hstep.2 fun i a ha hlo hhi => ?_
    have hkept : splice snap l idx e = l := by
      unfold splice
      rw [if_pos (.inl (by omega))]
    rw [hkept, show idx + 1 + i = idx + (i + 1) by omega]
    exact hagree (i + 1) a (by simpa using ha) (by omega) (by omega)

lemma holds_putAll (h : Holds log l) (hpos : 0 < idx) (hidx : idx ≤ l.length + 1)
    (es : List LogEntry) : (log.putAll idx es).snapshotIndex = log.snapshotIndex ∧
      Holds (log.putAll idx es) (spliceAll log.snapshotIndex l idx es) := by
  induction es generalizing log l idx with
  | nil => exact ⟨rfl, h⟩
  | cons e es ih =>
    obtain ⟨hsnap, hput⟩ := h.put hpos hidx e
    obtain ⟨hsnap', hall⟩ := ih (l := splice log.snapshotIndex l idx e) hput (Nat.succ_pos idx)
      (length_splice h.snapshot_le hpos hidx e).2
    rw [hsnap] at hsnap' hall
    exact ⟨hsnap', hall⟩

/-! ### Calls -/

/-- The calls that change a log. -/
inductive Call
  | append (term : ℕ) (command : Bytes)
  | appendEntriesFrom (prevLogIndex prevLogTerm : ℕ) (entries : List LogEntry)
  | compactTo (lastIncludedIndex lastIncludedTerm : ℕ)
  | setAppliedIndex (index : ℕ)

/-- The log after a call. -/
def call (log : RaftLog) : Call → RaftLog
  | .append term command => (log.append term command).1
  | .appendEntriesFrom prevLogIndex prevLogTerm entries =>
    (log.appendEntriesFrom prevLogIndex prevLogTerm entries).getD log
  | .compactTo lastIncludedIndex lastIncludedTerm =>
    log.compactTo lastIncludedIndex lastIncludedTerm
  | .setAppliedIndex index => log.setAppliedIndex index

/-- The call does not ask for the term zero at an index that the log does not hold. -/
def Sane (log : RaftLog) : Call → Prop
  | .appendEntriesFrom prevLogIndex prevLogTerm _ => 0 < prevLogIndex → prevLogTerm = 0 →
      log.snapshotIndex ≤ prevLogIndex ∧ prevLogIndex ≤ log.lastIndex
  | _ => True

/-- The log holds an index with this term, as its boundary or as an entry. -/
def HoldsAt (log : RaftLog) (index term : ℕ) : Prop :=
  (index = log.snapshotIndex ∧ term = log.snapshotTerm) ∨
    ∃ e, log.get index = some e ∧ e.index = index ∧ e.term = term

lemma check_sound (h : Holds log l) {prev prevTerm : ℕ} {es : List LogEntry}
    (hsane : Sane log (.appendEntriesFrom prev prevTerm es)) (hprev : 0 < prev)
    (hterm : log.termAt prev = prevTerm) : log.snapshotIndex ≤ prev ∧ prev ≤ l.length := by
  by_cases hzero : prevTerm = 0
  · exact h.lastIndex ▸ hsane hprev hzero
  · have hlo : log.snapshotIndex ≤ prev := by
      by_contra hlt
      rw [Holds.termAt_of_lt (by omega)] at hterm
      exact hzero hterm.symm
    rw [h.termAt hlo] at hterm
    exact ⟨hlo, (exists_of_termOf_ne_zero (by rwa [hterm])).2⟩

lemma holdsAt (h : Holds log l) {i : ℕ} (hlo : log.snapshotIndex ≤ i) (hhi : i ≤ l.length) :
    HoldsAt log i (log.termAt i) := by
  rcases Nat.lt_or_eq_of_le hlo with hlt | rfl
  · obtain ⟨e, he⟩ : ∃ e, l[i - 1]? = some e :=
      ⟨_, List.getElem?_eq_getElem (show i - 1 < l.length by omega)⟩
    refine .inr ⟨e, (h.get hlt).trans he, ?_, ?_⟩
    · rw [h.indexed _ _ he]
      omega
    · have hat := termOf_eq_of_getElem? he
      rw [Nat.sub_add_cancel (by omega)] at hat
      exact hat.symm.trans (h.termAt hlo).symm
  · refine .inl ⟨rfl, ?_⟩
    rw [h.termAt le_rfl, h.snapshotTerm]

lemma appendEntriesFrom_eq (log : RaftLog) (prev prevTerm : ℕ) (es : List LogEntry) :
    log.appendEntriesFrom prev prevTerm es =
      if 0 < prev ∧ log.termAt prev ≠ prevTerm then none else some (log.putAll (prev + 1) es) :=
  rfl

/-- **What a call keeps**: the log is what is left of some whole log. -/
theorem call_holds (h : Holds log l) {c : Call} (hsane : Sane log c) :
    ∃ l', Holds (call log c) l' := by
  cases c with
  | append term command => exact ⟨_, h.append term command⟩
  | appendEntriesFrom prev prevTerm es =>
    show ∃ l', Holds ((log.appendEntriesFrom prev prevTerm es).getD log) l'
    rw [appendEntriesFrom_eq]
    split_ifs with hcheck
    · exact ⟨l, h⟩
    · have hprev : prev ≤ l.length := by
        rcases Nat.eq_zero_or_pos prev with rfl | hpos
        · exact Nat.zero_le _
        · exact (check_sound h hsane hpos (by tauto)).2
      exact ⟨_, (holds_putAll h (Nat.succ_pos prev) (by omega) es).2⟩
  | compactTo index term => exact h.compactTo_any index term
  | setAppliedIndex index => exact ⟨l, h.setAppliedIndex index⟩

lemma calls_hold (h : Reach (StepOf call) Sane .empty log) : ∃ l, Holds log l := by
  refine h.invariant (I := fun log => ∃ l, Holds log l) ⟨[], Holds.empty⟩ ?_
  rintro log c _ ⟨l, hl⟩ hsane rfl
  exact call_holds hl hsane

lemma next {σ ε : Type*} {f : σ → ε → σ} {ok : σ → ε → Prop} {s₀ s : σ}
    (h : Reach (StepOf f) ok s₀ s) (e : ε) (hok : ok s e) : Reach (StepOf f) ok s₀ (f s e) :=
  h.tail hok rfl

/-- **The check and the representation are sound**: whatever calls are made, none of which
asks for the term zero at an index that the log does not hold, the entries follow each other
from the boundary on; a true answer of `AppendEntriesFrom` means that the log holds the
preceding index with its term, and leaves the entries of the request above the boundary,
except where an entry of the same term was there, which stays; a false one changes nothing. -/
theorem calls_sound (h : Reach (StepOf call) Sane .empty log) :
    (∀ i e, log.entries[i]? = some e → e.index = log.snapshotIndex + 1 + i) ∧
    ∀ prev prevTerm es, Sane log (.appendEntriesFrom prev prevTerm es) →
      (log.appendEntriesFrom prev prevTerm es = none →
        call log (.appendEntriesFrom prev prevTerm es) = log) ∧
      ∀ log', log.appendEntriesFrom prev prevTerm es = some log' →
        (0 < prev → HoldsAt log prev prevTerm) ∧ log'.snapshotIndex = log.snapshotIndex ∧
        ∀ i e, es[i]? = some e → log.snapshotIndex < prev + 1 + i →
          log'.get (prev + 1 + i) = some { e with index := prev + 1 + i } ∨
            ∃ old, old.term = e.term ∧ log.get (prev + 1 + i) = some old ∧
              log'.get (prev + 1 + i) = some old := by
  obtain ⟨l, hl⟩ := calls_hold h
  refine ⟨fun i e he => ?_, fun prev prevTerm es hsane =>
    ⟨fun hnone => ?_, fun log' hsome => ?_⟩⟩
  · rw [hl.entries] at he
    have := hl.indexed.drop he
    omega
  · unfold call
    simp only [hnone, Option.getD_none]
  · rw [appendEntriesFrom_eq] at hsome
    split_ifs at hsome with hcheck
    cases hsome
    have hheld : 0 < prev → log.termAt prev = prevTerm ∧ log.snapshotIndex ≤ prev ∧
        prev ≤ l.length := by
      intro hpos
      have hterm : log.termAt prev = prevTerm := by tauto
      exact ⟨hterm, check_sound hl hsane hpos hterm⟩
    have hprev : prev + 1 ≤ l.length + 1 := by
      rcases Nat.eq_zero_or_pos prev with rfl | hpos
      · omega
      · have := (hheld hpos).2.2
        omega
    obtain ⟨hsnap, hall⟩ := holds_putAll hl (Nat.succ_pos prev) hprev es
    refine ⟨fun hpos => ?_, hsnap, fun i e he hi => ?_⟩
    · obtain ⟨hterm, hlo, hhi⟩ := hheld hpos
      exact hterm ▸ holdsAt hl hlo hhi
    · rw [hall.get (by omega), hl.get hi]
      exact getElem?_spliceAll hl.snapshot_le (Nat.succ_pos prev) hprev he hi

/-- Of two entries one has the term of the request and stays, the other one is replaced. -/
theorem calls_sound_two : ∃ log log' : RaftLog,
    log.appendEntriesFrom 1 1 [⟨2, 1, [98]⟩, ⟨3, 2, [99]⟩] = some log' ∧
      log'.get 2 = some ⟨2, 1, [97]⟩ ∧ log'.get 3 = some ⟨3, 2, [99]⟩ ∧
        HoldsAt log 1 1 := by
  have h₀ : Reach (StepOf call) Sane .empty .empty := .refl
  have h₁ := next h₀ (.append 1 []) trivial
  have h₂ := next h₁ (.append 1 [97]) trivial
  have h₃ := next h₂ (.append 1 [97]) trivial
  have h₄ := next h₃ (.compactTo 1 1) trivial
  have hsound := (calls_sound h₄).2 1 1 [⟨2, 1, [98]⟩, ⟨3, 2, [99]⟩] fun _ h => by cases h
  exact ⟨_, _, rfl, by decide, by decide, (hsound.2 _ rfl).1 (by decide)⟩

/-- **Where a true answer says less**: an entry of the same term and index stays, though its
command is another one; and with the term zero for an index past its end an empty log takes
an entry with a gap in front of it. -/
theorem answers_true : (¬ ∀ log : RaftLog, Reach (StepOf call) (fun _ _ => True) .empty log →
      ∀ es log', log.appendEntriesFrom 0 0 es = some log' → ∀ i e, es[i]? = some e →
        log.snapshotIndex < 1 + i → log'.get (1 + i) = some { e with index := 1 + i }) ∧
    ¬ ∀ log : RaftLog, Reach (StepOf call) (fun _ _ => True) .empty log →
      ∀ i e, log.entries[i]? = some e → e.index = log.snapshotIndex + 1 + i := by
  constructor
  · intro hall
    have h₀ : Reach (StepOf call) (fun _ _ => True) .empty .empty := .refl
    have h := next h₀ (.append 1 [97]) trivial
    exact absurd (hall _ h [⟨1, 1, [98]⟩] _ rfl 0 _ rfl (by decide)) (by decide)
  · intro hall
    have h₀ : Reach (StepOf call) (fun _ _ => True) .empty .empty := .refl
    have h := next h₀ (.appendEntriesFrom 5 0 [⟨6, 1, []⟩]) trivial
    exact absurd (hall _ h 0 ⟨6, 1, []⟩ (by decide)) (by decide)

/-- A log that compacts, beside one that never does. -/
structure Logs where
  compacting : RaftLog
  plain : RaftLog

inductive Use
  | append (term : ℕ) (command : Bytes)
  | appendEntriesFrom (prevLogIndex prevLogTerm : ℕ) (entries : List LogEntry)
  /-- The first log compacts up to an index. -/
  | compact (index : ℕ)

def use (p : Logs) : Use → Logs
  | .append term command =>
    ⟨call p.compacting (.append term command), call p.plain (.append term command)⟩
  | .appendEntriesFrom prevLogIndex prevLogTerm entries =>
    ⟨call p.compacting (.appendEntriesFrom prevLogIndex prevLogTerm entries),
      call p.plain (.appendEntriesFrom prevLogIndex prevLogTerm entries)⟩
  | .compact index => ⟨call p.compacting
      (.compactTo index (p.compacting.termAt index)), p.plain⟩

/-- Terms are positive, no batch begins below the boundary, and none conflicts with what is
compacted away. -/
def Compatible (p : Logs) : Use → Prop
  | .append term _ => 0 < term
  | .appendEntriesFrom prevLogIndex prevLogTerm entries =>
    (0 < prevLogIndex → 0 < prevLogTerm ∧ p.compacting.snapshotIndex ≤ prevLogIndex) ∧
    (∀ e ∈ entries, 0 < e.term) ∧
    ∀ i e, entries[i]? = some e → prevLogIndex + 1 + i ≤ p.compacting.snapshotIndex →
      p.plain.termAt (prevLogIndex + 1 + i) = e.term
  | .compact index => index ≤ p.compacting.lastIndex

/-- Both logs are what is left of one whole log. -/
def SameWhole (p : Logs) : Prop :=
  p.plain.snapshotIndex = 0 ∧ ∃ l, Holds p.compacting l ∧ Holds p.plain l

/-- The two logs cannot be told apart above the boundary. -/
structure Agree (p : Logs) : Prop where
  lastIndex : p.compacting.lastIndex = p.plain.lastIndex
  lastTerm : p.compacting.lastTerm = p.plain.lastTerm
  termAt : ∀ i, p.compacting.snapshotIndex ≤ i → p.compacting.termAt i = p.plain.termAt i
  get : ∀ i, p.compacting.snapshotIndex < i → p.compacting.get i = p.plain.get i

variable {p : Logs}

lemma SameWhole.agree (h : SameWhole p) : Agree p := by
  obtain ⟨hzero, l, hl, hl'⟩ := h
  exact {
    lastIndex := hl.lastIndex.trans hl'.lastIndex.symm
    lastTerm := hl.lastTerm.trans hl'.lastTerm.symm
    termAt := fun i hi => (hl.termAt hi).trans (hl'.termAt (by omega)).symm
    get := fun i hi => (hl.get hi).trans (hl'.get (by omega)).symm }

lemma SameWhole.check (h : SameWhole p) {prev prevTerm : ℕ} {es : List LogEntry}
    (hok : Compatible p (.appendEntriesFrom prev prevTerm es)) :
    (0 < prev ∧ p.compacting.termAt prev ≠ prevTerm) ↔
      (0 < prev ∧ p.plain.termAt prev ≠ prevTerm) := by
  refine and_congr_right fun hpos => ?_
  rw [h.agree.termAt prev (hok.1 hpos).2]

lemma SameWhole.batch (h : SameWhole p) {prev prevTerm : ℕ} {es : List LogEntry}
    (hok : Compatible p (.appendEntriesFrom prev prevTerm es)) :
    SameWhole (use p (.appendEntriesFrom prev prevTerm es)) := by
  have hcheck := h.check hok
  obtain ⟨hzero, l, hl, hl'⟩ := h
  unfold use call
  dsimp only
  rw [appendEntriesFrom_eq, appendEntriesFrom_eq]
  by_cases hrefused : 0 < prev ∧ p.compacting.termAt prev ≠ prevTerm
  · rw [if_pos hrefused, if_pos (hcheck.mp hrefused)]
    exact ⟨hzero, l, hl, hl'⟩
  · rw [if_neg hrefused, if_neg fun hno => hrefused (hcheck.mpr hno)]
    have hprev : prev + 1 ≤ l.length + 1 := by
      rcases Nat.eq_zero_or_pos prev with rfl | hpos
      · omega
      · have hterm : p.compacting.termAt prev = prevTerm := by tauto
        rw [hl.termAt (hok.1 hpos).2] at hterm
        have hpositive := (hok.1 hpos).1
        have := (exists_of_termOf_ne_zero (l := l) (i := prev) (by omega)).2
        omega
    obtain ⟨hsnap, hall⟩ := holds_putAll hl (Nat.succ_pos prev) hprev es
    obtain ⟨hsnap', hall'⟩ := holds_putAll hl' (Nat.succ_pos prev) hprev es
    have hcongr : spliceAll p.compacting.snapshotIndex l (prev + 1) es =
        spliceAll p.plain.snapshotIndex l (prev + 1) es := by
      refine spliceAll_congr (by omega) hl.snapshot_le (Nat.succ_pos prev) hprev ?_
      intro i e he hlo hhi
      rw [← hl'.termAt (by omega)]
      exact hok.2.2 i e he hhi
    exact ⟨hsnap'.trans hzero, _, hall, hcongr ▸ hall'⟩

lemma SameWhole.use (h : SameWhole p) {u : Use} (hok : Compatible p u) :
    SameWhole (LogCalls.use p u) := by
  cases u with
  | append term command =>
    obtain ⟨hzero, l, hl, hl'⟩ := h
    exact ⟨hzero, _, hl.append term command, hl'.append term command⟩
  | appendEntriesFrom prev prevTerm es => exact h.batch hok
  | compact index =>
    obtain ⟨hzero, l, hl, hl'⟩ := h
    refine ⟨hzero, l, ?_, hl'⟩
    show Holds (p.compacting.compactTo index (p.compacting.termAt index)) l
    rcases Nat.lt_or_ge index p.compacting.snapshotIndex with hlt | hge
    · rwa [Holds.compactTo_of_le hlt.le]
    · exact (hl.compactTo_termAt hge (hl.lastIndex ▸ hok)).1

/-- **Compaction is invisible above the boundary**: a log that compacts where it likes and one
that never does agree on their ends, on every index from the boundary on, and on the answer
to every batch. -/
theorem compaction_invisible (h : Reach (StepOf use) Compatible ⟨.empty, .empty⟩ p) :
    Agree p ∧ ∀ prev prevTerm es, Compatible p (.appendEntriesFrom prev prevTerm es) →
      (p.compacting.appendEntriesFrom prev prevTerm es).isSome =
        (p.plain.appendEntriesFrom prev prevTerm es).isSome := by
  have hsame : SameWhole p := by
    refine h.invariant ⟨rfl, [], Holds.empty, Holds.empty⟩ fun p u p' hp hok hstep => ?_
    exact hstep ▸ hp.use hok
  refine ⟨hsame.agree, fun prev prevTerm es hok => ?_⟩
  have hcheck := hsame.check hok
  rw [appendEntriesFrom_eq, appendEntriesFrom_eq]
  by_cases hrefused : 0 < prev ∧ p.compacting.termAt prev ≠ prevTerm
  · rw [if_pos hrefused, if_pos (hcheck.mp hrefused)]
  · rw [if_neg hrefused, if_neg fun hno => hrefused (hcheck.mpr hno)]
    rfl

/-- A log that has compacted two of its three entries, and then replaces the third. -/
theorem compaction_invisible_two : ∃ p : Logs, p.compacting.snapshotIndex = 2 ∧
    p.compacting.entries = [⟨3, 2, [99]⟩] ∧ Agree p := by
  have h₀ : Reach (StepOf use) Compatible ⟨.empty, .empty⟩ ⟨.empty, .empty⟩ := .refl
  have h₁ := next h₀ (.append 1 []) Nat.one_pos
  have h₂ := next h₁ (.append 1 [97]) Nat.one_pos
  have h₃ := next h₂ (.append 1 [98]) Nat.one_pos
  have h₄ := next h₃ (.compact 2) (Nat.le_succ 2)
  have h₅ := next h₄ (.appendEntriesFrom 2 1 [⟨3, 2, [99]⟩])
    ⟨fun _ => ⟨Nat.one_pos, le_rfl⟩, by decide,
      fun i e _ (hi : 2 + 1 + i ≤ 2) => by omega⟩
  exact ⟨_, by decide, by decide, (compaction_invisible h₅).1⟩

end DistDB.LogCalls
