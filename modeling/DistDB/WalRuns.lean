import DistDB.Runs
import DistDB.WalModel

/-!
Runs of the write-ahead log over any number of crashes.

A cycle opens the file, replays it, appends, and ends cleanly or inside an append, of which
a strict prefix is then on disk. The run remembers the records whose append completed since
the last `Reset`, and what every `Replay` delivered next to what it should have.

A replay leaves torn bytes where they are, so the next append goes behind them and is never
read again (`append_behind_torn`). As long as every append starts on a file without torn
bytes, each replay delivers exactly the completed records (`replays_exact`).
-/

namespace DistDB.WalRuns

open WalModel WalModel.WriteAheadLog

inductive Event
  | append (m : Mutation)
  | reset
  /-- The cycle ends between two calls; the log is opened and replayed again. -/
  | reopen
  /-- The cycle ends inside an append of which `n` bytes reach the disk. -/
  | tear (m : Mutation) (n : Fin (encode m.record).length)

structure State where
  wal : WriteAheadLog
  /-- The records whose append completed since the last `Reset`. -/
  done : List Record
  /-- For every `Replay` so far: what it delivered, and the records completed by then. -/
  replays : List (List Record × List Record)

/-- `Open` and `Replay` on the file a cycle left behind. -/
def recover (file : Bytes) (s : State) : State :=
  let w := openFile file
  ⟨w.replay, s.done, s.replays ++ [(w.replayed, s.done)]⟩

def start : State := recover [] ⟨openFile [], [], []⟩

def step (s : State) : Event → State
  | .append m => ⟨s.wal.appendRecord m.record, s.done ++ [m.record], s.replays⟩
  | .reset => ⟨s.wal.reset, [], s.replays⟩
  | .reopen => recover s.wal.file s
  | .tear m n => recover (s.wal.write ((encode m.record).take n)).file s

/-- Every replay so far delivered exactly the completed records, in write order. -/
def Exact (s : State) : Prop := ∀ p ∈ s.replays, p.1 = p.2

/-- An append of `m` in state `s` starts on a file that holds the completed records and
nothing else, and its key and value fit their length fields. -/
def Clean (s : State) (m : Mutation) : Prop :=
  s.wal.file = encodeAll s.done ∧ m.record.key.length < 2 ^ 32 ∧ m.record.value.length < 2 ^ 32

/-- What a step must meet: an append is clean, unless a crash keeps all of it off the disk. -/
def StepOk (s : State) : Event → Prop
  | .append m => Clean s m
  | .tear m n => (n : ℕ) = 0 ∨ Clean s m
  | .reset => True
  | .reopen => True

/-! ### The invariant -/

structure Inv (s : State) : Prop where
  fits : ∀ r ∈ s.done, Fits r
  pos : s.wal.pos = s.wal.file.length
  file : ∃ t, readRecord t = none ∧ s.wal.file = encodeAll s.done ++ t
  exact : Exact s

lemma recover_inv {s : State} {file t : Bytes} (hfits : ∀ r ∈ s.done, Fits r)
    (hex : Exact s) (ht : readRecord t = none) (hfile : file = encodeAll s.done ++ t) :
    Inv (recover file s) where
  fits := hfits
  pos := rfl
  file := ⟨t, ht, hfile⟩
  exact := by
    intro p hp
    rcases List.mem_append.mp hp with hp | hp
    · exact hex p hp
    · obtain rfl := List.mem_singleton.mp hp
      simp only [openFile, hfile, replayed_encodeAll hfits ht]

lemma start_inv : Inv start :=
  recover_inv (t := []) (by simp) (fun p hp => by simp at hp) readRecord_nil rfl

lemma step_inv {s : State} {e : Event} (hs : Inv s) (hok : StepOk s e) : Inv (step s e) := by
  obtain ⟨⟨file, pos⟩, done, replays⟩ := s
  obtain ⟨hfits, hpos, ⟨t, ht, hfile⟩, hex⟩ := hs
  simp only at hfits hpos hfile
  subst hpos
  cases e with
  | append m =>
    obtain ⟨hclean, hk, hv⟩ := hok
    simp only at hclean
    refine ⟨?_, ?_, ⟨[], readRecord_nil, ?_⟩, hex⟩
    · intro r hr
      rcases List.mem_append.mp hr with hr | hr
      · exact hfits r hr
      · rw [List.mem_singleton.mp hr]; exact Mutation.fits_record hk hv
    · simp [step, appendRecord_at_end]
    · simp only [step, appendRecord_at_end, encodeAll_append, encodeAll_singleton, hclean,
        List.append_nil]
  | reset => exact ⟨by simp [step], rfl, ⟨[], readRecord_nil, rfl⟩, hex⟩
  | reopen => exact recover_inv hfits hex ht hfile
  | tear m n =>
    rcases hok with hn | ⟨hclean, hk, hv⟩
    · exact recover_inv hfits hex ht
        (by rw [hn, List.take_zero, write_at_end, List.append_nil, hfile])
    · simp only at hclean
      refine recover_inv hfits hex (readRecord_torn (Mutation.fits_record hk hv) n.isLt) ?_
      simp [hclean]

/-- **Durability over repeated crashes**: in a run whose appends are all clean, every
replay delivers exactly the completed records. -/
theorem replays_exact {s : State} (h : Reach (StepOf step) StepOk start s) : Exact s :=
  (h.invariant (I := Inv) start_inv fun _ _ _ hs hok he => by
    cases he; exact step_inv hs hok).exact

/-- One byte of a record torn off, then a whole record, then a restart. -/
def tornRun : List Event :=
  [.tear (.delete [97]) ⟨1, by decide⟩, .append (.delete [98]), .reopen]

/-- A completed run that meets the condition: a record torn off on an empty file, and a
record appended after a reset. -/
theorem replays_exact_cleanRun :
    Exact (runOf step start
      [.tear (.delete [97]) ⟨1, by decide⟩, .reset, .append (.delete [98]), .reopen]) := by
  refine replays_exact (.tail
    (.tail (.tail (.tail .refl (e := .tear (.delete [97]) ⟨1, by decide⟩) ?_ rfl)
      (e := .reset) trivial rfl) (e := .append (.delete [98])) ?_ rfl) (e := .reopen)
    trivial rfl)
  · exact Or.inr ⟨rfl, by decide, by decide⟩
  · exact ⟨rfl, by decide, by decide⟩

/-- **A record appended behind torn bytes is lost**: its append completed, and the next
replay does not deliver it. -/
theorem append_behind_torn :
    ¬ ∀ s, Reach (StepOf step) (fun _ _ => True) start s → Exact s := by
  intro h
  have hbad : (runOf step start tornRun).replays =
      [([], []), ([], []), ([], [⟨kDelete, [98], []⟩])] := by decide +kernel
  have hex := h _ (reach_runOf step start tornRun) ([], [⟨kDelete, [98], []⟩])
  rw [hbad] at hex
  exact absurd (hex (by simp)) (by simp)

end DistDB.WalRuns
