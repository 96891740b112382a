import DistDB.EngineCrash
import DistDB.Replicas

/-!
A snapshot of an engine is sent and installed: `snapshot_callback` dumps what the engine scans,
`restore_callback` resets the receiver and puts every pair.

The sender may have been through anything that keeps to the limits of its tables: writes, resets,
restarts, crashes between any two durable writes. The receiver may have been through anything at
all. Afterwards the two answer alike (`transfer_exact`), as long as the pairs can be counted in
the four bytes of the dump; a dump of `2 ^ 32` pairs counts none (`dump_count_wraps`).
-/

namespace DistDB.EngineSnapshot

open SstModel WalModel EngineModel EngineInv EngineFlush EngineMap EngineCrash Layers OrdMap
open Replicas Checks
open Codec hiding run

inductive Move
  | write (mu : Mutation)
  | reset
  /-- `Open` on the directory of an engine that is gone. -/
  | restart
  /-- A crash inside `mu`, right after the durable write `p`, and `Open`. -/
  | crash (mu : Mutation) (p : Point)
  /-- A crash inside `Reset` after so many tables are removed, and `Open`. -/
  | crashReset (n : ℕ)

/-- The directory once `Reset` has removed the `n` newest tables. -/
def resetDisk (e : StorageEngine) (n : ℕ) : Disk :=
  ⟨e.wal.file, ((e.sstables.take n).map Table.seq).foldl OrdMap.erase e.sst, e.tmp⟩

inductive Moves : StorageEngine → Move → StorageEngine → Prop
  | write {e e' : StorageEngine} {mu : Mutation} (h : (mutate e mu).2 = .ok e') :
      Moves e (.write mu) e'
  | reset {e : StorageEngine} : Moves e .reset e.reset
  | restart {e e' : StorageEngine} (h : openEngine e.disk = .ok e') : Moves e .restart e'
  | crash {e e' : StorageEngine} {mu : Mutation} {p : Point} {d : Disk}
      (hd : (p, d) ∈ (mutate e mu).1) (h : openEngine d = .ok e') : Moves e (.crash mu p) e'
  | crashReset {e e' : StorageEngine} {n : ℕ} (h : openEngine (resetDisk e n) = .ok e') :
      Moves e (.crashReset n) e'

/-- The pairs an engine scans. -/
def contents (e : StorageEngine) : PlainMap := insertAll .empty (e.scan [])

/-- The record fits, and so do the tables that the write may have to make. -/
structure Fitting (e : StorageEngine) (mu : Mutation) : Prop where
  sizes : Sizes mu
  memtable : Room (e.memtable.replay mu.record).entries
  merged : Room (tableOf (applyTo (contents e) mu))

def Move.Fits (e : StorageEngine) : Move → Prop
  | .write mu => Fitting e mu
  | .crash mu _ => Fitting e mu
  | _ => True

/-- Keys and values are shorter than `2 ^ 32 - 1` bytes, and that is all. -/
def Move.Sized : Move → Prop
  | .write mu => Sizes mu
  | .crash mu _ => Sizes mu
  | _ => True

/-- An engine that started empty and has made moves that meet `ok`. -/
def Lived (ok : StorageEngine → Move → Prop) (e : StorageEngine) : Prop :=
  ∃ e₀, openEngine emptyDisk = .ok e₀ ∧ Reach Moves ok e₀ e

/-- `snapshot_callback`. -/
def dump (s : StorageEngine) : Bytes := encodeSnapshot (s.scan [])

/-- What `restore_callback` does with the pairs. -/
def install (r : StorageEngine) (kvs : List (Bytes × Bytes)) : Except OpenError StorageEngine :=
  kvs.foldlM (fun e kv => (e.put kv.1 kv.2).2) r.reset

/-- `restore_callback`; the inner error is one that it reports. -/
def restoreFrom (r : StorageEngine) (data : Bytes) :
    Except Exception (Except OpenError StorageEngine) := do
  return install r (← decodeSnapshot data)

/-! ### The sender -/

/-- The keys of all layers are shorter than `2 ^ 32 - 1` bytes. -/
def Keyed (c : Content) : Prop :=
  ∀ l ∈ layersOf c.1 c.2, ∀ x ∈ l, x.1.length < 2 ^ 32 - 1

lemma keyed_nil : Keyed ([], []) := by
  intro l hl x hx
  obtain rfl := List.mem_singleton.mp hl
  cases hx

/-- The live pairs of a content. -/
def liveMap (c : Content) : PlainMap := (merge (layersOf c.1 c.2)).filterMap fun _ v => v

lemma find_liveMap (c : Content) (k : Bytes) : (liveMap c).find k = c.value k := by
  rw [liveMap, find_filterMap, find_merge]
  rfl

lemma exists_of_top {ls : List (Layer Bytes Bytes)} {k : Bytes} {v : Option Bytes}
    (h : top ls k = some v) : ∃ l ∈ ls, (k, v) ∈ l := by
  induction ls with
  | nil => cases h
  | cons l ls ih =>
    rw [top] at h
    rcases hlook : look k l with _ | w
    · rw [hlook] at h
      obtain ⟨l', hl', hmem⟩ := ih h
      exact ⟨l', List.mem_cons_of_mem _ hl', hmem⟩
    · rw [hlook] at h
      cases h
      exact ⟨l, List.mem_cons_self, mem_of_look hlook⟩

lemma entryFits_layers {c : Content} (hrecs : ∀ r ∈ c.2, RecordOk r)
    (hfits : ∀ t ∈ c.1, TableFits t.2) :
    ∀ l ∈ layersOf c.1 c.2, ∀ x ∈ l, EntryFits x := by
  intro l hl
  rcases List.mem_cons.mp hl with rfl | hl
  · exact memOf_fits hrecs
  · obtain ⟨t, ht, rfl⟩ := List.mem_map.mp hl
    exact (hfits t ht).entries

lemma models_of_holds {e : StorageEngine} {c : Content} (h : Holds e c.1 c.2) (hk : Keyed c) :
    Models e c (liveMap c) where
  holds := h
  agrees := find_liveMap c
  sizes := by
    intro k v hfind
    rw [find_liveMap, Content.value, Layers.value] at hfind
    rcases htop : top (layersOf c.1 c.2) k with _ | w
    · rw [htop] at hfind
      cases hfind
    · rw [htop] at hfind
      obtain ⟨l, hl, hmem⟩ := exists_of_top htop
      have hv : w = some v := hfind
      exact ⟨hk l hl _ hmem,
        (entryFits_layers h.stored.recs h.stored.fits l hl _ hmem).value v hv⟩

lemma contents_eq {e : StorageEngine} {c : Content} {m : PlainMap} (h : Models e c m) :
    contents e = m := by
  have hscan : e.scan [] = m.entries := by
    rw [h.answers.scan, List.filter_eq_self.mpr fun kv _ => by simp]
  rw [contents, hscan, insertAll_entries]

lemma Keyed.afterLog {c : Content} (h : Keyed c) {mu : Mutation} (hs : Sizes mu) :
    Keyed (afterLog c mu) := by
  intro l hl x hx
  rcases List.mem_cons.mp hl with rfl | hl
  · rw [EngineMap.afterLog, memOf_append, replay_eq] at hx
    rcases mem_put hx with rfl | hx
    · exact hs.key
    · exact h _ List.mem_cons_self x hx
  · exact h l (List.mem_cons_of_mem _ hl) x hx

/-- Tables whose entries are all found in the layers of a content, and a log that is empty. -/
lemma Keyed.tables {c : Content} (h : Keyed c) {tabs : List TableSpec}
    (htabs : ∀ t ∈ tabs, ∀ x ∈ t.2, ∃ l ∈ layersOf c.1 c.2, ∃ v, (x.1, v) ∈ l) :
    Keyed (tabs, []) := by
  intro l hl x hx
  rcases List.mem_cons.mp hl with rfl | hl
  · cases hx
  · obtain ⟨t, ht, rfl⟩ := List.mem_map.mp hl
    obtain ⟨l', hl', v, hmem⟩ := htabs t ht x hx
    exact h l' hl' (x.1, v) hmem

lemma mem_compacted {c : Content} {x : Entry} (h : x ∈ compacted c) :
    ∃ l ∈ layersOf c.1 c.2, ∃ v, (x.1, v) ∈ l := by
  have hlook := look_of_mem (asc_compact _) (show (x.1, x.2) ∈ compact (layersOf c.1 c.2) from h)
  rw [look_compact] at hlook
  obtain ⟨v, htop, -⟩ := Option.bind_eq_some_iff.mp hlook
  obtain ⟨l, hl, hmem⟩ := exists_of_top htop
  exact ⟨l, hl, v, hmem⟩

lemma mem_tables {c : Content} {t : TableSpec} {seq : ℕ} (ht : t ∈ (seq, flushed c) :: c.1)
    {x : Entry} (hx : x ∈ t.2) : ∃ l ∈ layersOf c.1 c.2, ∃ v, (x.1, v) ∈ l := by
  rcases List.mem_cons.mp ht with rfl | ht
  · exact ⟨_, List.mem_cons_self, x.2, hx⟩
  · exact ⟨t.2, List.mem_cons_of_mem _ (List.mem_map.mpr ⟨t, ht, rfl⟩), x.2, hx⟩

lemma Keyed.leaves {c : Content} (h : Keyed c) (seq : ℕ) (p : Point) :
    Keyed (leaves c seq p) := by
  cases p with
  | logged | flushTmp => exact h
  | flushRename =>
    intro l hl x hx
    rcases List.mem_cons.mp hl with rfl | hl
    · exact h _ List.mem_cons_self x hx
    · rcases List.mem_cons.mp hl with rfl | hl
      · exact h _ List.mem_cons_self x hx
      · exact h l (List.mem_cons_of_mem _ hl) x hx
  | walReset | compactTmp => exact h.tables fun t ht x hx => mem_tables ht hx
  | compactRename =>
    refine h.tables fun t ht x hx => ?_
    rcases List.mem_cons.mp ht with rfl | ht
    · exact mem_compacted hx
    · exact mem_tables ht hx
  | removed n =>
    refine h.tables fun t ht x hx => ?_
    rcases List.mem_cons.mp ht with rfl | ht
    · exact mem_compacted hx
    · exact mem_tables (List.mem_of_mem_drop ht) hx

lemma Keyed.settled {c : Content} (h : Keyed c) (seq : ℕ) : Keyed (settled c seq) := by
  unfold EngineFlush.settled
  split_ifs
  · exact h
  · exact h.tables fun t ht x hx => mem_tables ht hx
  · refine h.tables fun t ht x hx => ?_
    obtain rfl := List.mem_singleton.mp ht
    exact mem_compacted hx

/-- What the engine of a sender is like: its files hold a content it can read. -/
def Sound (e : StorageEngine) : Prop := ∃ c : Content, Holds e c.1 c.2 ∧ Keyed c

lemma sound_opened {d : Disk} {c : Content} (h : Stored d c.1 c.2) (hk : Keyed c)
    {e : StorageEngine} (he : openEngine d = .ok e) : Sound e := by
  obtain ⟨e', he', hholds⟩ := openEngine_holds h
  rw [he] at he'
  cases he'
  exact ⟨c, hholds, hk⟩

lemma stored_drop {d : Disk} {tabs : List TableSpec} {rs : List Record} (h : Stored d tabs rs)
    (n : ℕ) : Stored ⟨d.wal, ((tabs.take n).map Prod.fst).foldl OrdMap.erase d.sst, d.tmp⟩
      (tabs.drop n) rs where
  wal := h.wal
  recs := h.recs
  sst := by
    have hdesc := h.desc
    rw [← List.take_append_drop n tabs, List.pairwise_append] at hdesc
    rw [foldl_erase_entries, h.sst, List.filter_reverse]
    congr 1
    conv_lhs => rw [← List.take_append_drop n tabs]
    rw [List.map_append, List.filter_append, List.filter_eq_nil_iff.mpr, List.nil_append,
      List.filter_eq_self]
    · intro f hf
      obtain ⟨t, ht, rfl⟩ := List.mem_map.mp hf
      have hnot : t.1 ∉ (tabs.take n).map Prod.fst := by
        intro hmem
        obtain ⟨t', ht', heq⟩ := List.mem_map.mp hmem
        exact absurd (hdesc.2.2 t' ht' t ht) (by omega)
      simpa using hnot
    · intro f hf
      obtain ⟨t, ht, rfl⟩ := List.mem_map.mp hf
      have hin : t.1 ∈ (tabs.take n).map Prod.fst := List.mem_map.mpr ⟨t, ht, rfl⟩
      simp only [decide_eq_true_eq, not_not, List.take_append_drop]
      exact hin
  fits t ht := h.fits t (List.mem_of_mem_drop ht)

lemma Sound.step {e e' : StorageEngine} {mv : Move} (h : Sound e) (hok : mv.Fits e)
    (hs : Moves e mv e') : Sound e' := by
  obtain ⟨c, hholds, hk⟩ := h
  have hm := models_of_holds hholds hk
  have hspec : ∀ mu, Fitting e mu → _ := fun mu hfit => mutate_spec hm hfit.sizes
    (room_flushed hm hfit.memtable) (by have := hfit.merged; rwa [contents_eq hm] at this)
  cases hs with
  | @write _ mu hout =>
    obtain ⟨⟨e₁, hout₁, hm₁⟩, -⟩ := hspec mu hok
    rw [hout] at hout₁
    cases hout₁
    exact ⟨_, hm₁.holds, (hk.afterLog hok.sizes).settled _⟩
  | reset => exact ⟨_, (reset_models hm).holds, keyed_nil⟩
  | restart hopen => exact sound_opened hholds.stored hk hopen
  | @crash _ mu p d hd hopen =>
    obtain ⟨-, himages⟩ := hspec mu hok
    exact sound_opened (himages _ hd) ((hk.afterLog hok.sizes).leaves _ _) hopen
  | @crashReset _ n hopen =>
    have hst := stored_drop hholds.stored n
    have hseqs : (e.sstables.take n).map Table.seq = (c.1.take n).map Prod.fst := by
      rw [hholds.tables, ← List.map_take, List.map_map]
      rfl
    have hk' : Keyed (c.1.drop n, c.2) := by
      intro l hl x hx
      rcases List.mem_cons.mp hl with rfl | hl
      · exact hk _ List.mem_cons_self x hx
      · obtain ⟨t, ht, rfl⟩ := List.mem_map.mp hl
        exact hk t.2 (List.mem_cons_of_mem _
          (List.mem_map.mpr ⟨t, List.mem_of_mem_drop ht, rfl⟩)) x hx
    refine sound_opened (c := (c.1.drop n, c.2)) ?_ hk' hopen
    rw [resetDisk, hseqs]
    exact hst

lemma sound_of_lived {e : StorageEngine} (h : Lived (fun e mv => mv.Fits e) e) : Sound e := by
  obtain ⟨e₀, hopen, hreach⟩ := h
  have hst : Stored emptyDisk [] [] := ⟨rfl, by simp, rfl, by simp⟩
  have h₀ : Sound e₀ := sound_opened (c := ([], [])) hst
    keyed_nil hopen
  exact hreach.invariant h₀ fun _ _ _ hs hok hstep => hs.step hok hstep

/-- The files of an engine are those of its tables. -/
def Tidy (e : StorageEngine) : Prop := ∀ f ∈ e.sst.entries, f.1 ∈ e.sstables.map Table.seq

lemma Tidy.reset {e : StorageEngine} (h : Tidy e) : Models e.reset ([], []) .empty := by
  have hnone : ((e.sstables.map Table.seq).foldl OrdMap.erase e.sst).entries = [] := by
    rw [foldl_erase_entries, List.filter_eq_nil_iff]
    intro f hf
    simpa using h f hf
  exact ⟨⟨⟨rfl, by simp, hnone, by simp⟩, rfl, rfl, rfl, by simp⟩, fun _ => rfl,
    fun k v hkv => by simp at hkv⟩

lemma mapM_open_seqs {l : List (ℕ × Bytes)} {ts : List Table}
    (h : l.mapM (m := Except OpenError) (fun f => do
      let reader ← SSTableReader.openTable f.2
      return (⟨f.1, reader⟩ : Table)) = .ok ts) : ts.map Table.seq = l.map Prod.fst := by
  induction l generalizing ts with
  | nil =>
    cases h
    rfl
  | cons f l ih =>
    rw [List.mapM_cons] at h
    obtain ⟨t, ht, h⟩ := bind_eq_ok.mp h
    obtain ⟨ts', hts, h⟩ := bind_eq_ok.mp h
    obtain ⟨reader, -, ht⟩ := bind_eq_ok.mp ht
    cases ht
    cases h
    rw [List.map_cons, List.map_cons, ih hts]

lemma tidy_opened {d : Disk} {e : StorageEngine} (h : openEngine d = .ok e) : Tidy e := by
  obtain ⟨ts, hts, h⟩ := bind_eq_ok.mp h
  cases h
  intro f hf
  show f.1 ∈ ts.map Table.seq
  rw [mapM_open_seqs hts]
  exact List.mem_map.mpr ⟨f, List.mem_reverse.mpr hf, rfl⟩

lemma removals_eq (paths : List ℕ) (e : StorageEngine) (n : ℕ) :
    (e.removals n paths).2 = { e with sst := paths.foldl OrdMap.erase e.sst } := by
  induction paths generalizing e n with
  | nil => rfl
  | cons path paths ih => exact ih { e with sst := e.sst.erase path } (n + 1)

lemma Tidy.maybeCompact {e e' : StorageEngine} (h : Tidy e) (hout : e.maybeCompact.2 = .ok e') :
    Tidy e' := by
  unfold StorageEngine.maybeCompact at hout
  split at hout
  · cases hout
    exact h
  · simp only at hout
    split at hout
    · cases hout
    · simp only [removals_eq, Except.ok.injEq] at hout
      subst hout
      intro f hf
      simp only [foldl_erase_entries, List.mem_filter, decide_eq_true_eq] at hf
      -- an old file is removed, so this is the new one
      rcases mem_put hf.1 with rfl | hold
      · exact List.mem_singleton_self _
      · exact absurd (h f hold) hf.2

lemma Tidy.flushMemtable {e e' : StorageEngine} (h : Tidy e)
    (hout : e.flushMemtable.2 = .ok e') : Tidy e' := by
  unfold StorageEngine.flushMemtable at hout
  split at hout
  · cases hout
    exact h
  · simp only at hout
    split at hout
    · cases hout
    · refine Tidy.maybeCompact (fun f hf => ?_) hout
      rcases mem_put hf with rfl | hold
      · exact List.mem_cons_self
      · exact List.mem_cons_of_mem _ (h f hold)

lemma Tidy.mutate {e e' : StorageEngine} (h : Tidy e) {mu : Mutation}
    (hout : (mutate e mu).2 = .ok e') : Tidy e' := by
  have hlogged : Tidy (logged e mu.record) := h
  rw [mutate_eq] at hout
  unfold StorageEngine.flushIfFull at hout
  split at hout
  · exact hlogged.flushMemtable hout
  · cases hout
    exact hlogged

lemma tidy_of_lived {ok : StorageEngine → Move → Prop} {e : StorageEngine} (h : Lived ok e) :
    Tidy e := by
  obtain ⟨e₀, hopen, hreach⟩ := h
  refine hreach.invariant (tidy_opened hopen) fun s mv s' hs _ hstep => ?_
  cases hstep with
  | write hout => exact hs.mutate hout
  | reset =>
    have hnone : s.reset.sst.entries = [] := hs.reset.holds.stored.sst
    intro f hf
    rw [hnone] at hf
    cases hf
  | restart hopen | crash _ hopen | crashReset hopen => exact tidy_opened hopen

lemma entries_insertAll {l : List (Bytes × Bytes)} (hl : Asc l) :
    (insertAll (.empty : PlainMap) l).entries = l :=
  asc_ext (OrdMap.asc _) hl fun k => by
    have hfind := find_insertAll_of_asc (.empty : PlainMap) hl k
    rwa [find_empty, Option.or_none] at hfind

lemma room_take {m : PlainMap} (h : Room (tableOf m)) (n : ℕ) :
    Room (tableOf (insertAll .empty (m.entries.take n))) := by
  have hasc : Asc (m.entries.take n) := m.asc.sublist (List.take_sublist n _)
  have htable : tableOf (insertAll .empty (m.entries.take n)) = (tableOf m).take n := by
    rw [tableOf, entries_insertAll hasc, tableOf, List.map_take]
  have hdata : dataBlock (tableOf m) =
      dataBlock ((tableOf m).take n) ++ dataBlock ((tableOf m).drop n) := by
    rw [dataBlock, dataBlock, dataBlock, ← List.flatMap_append, List.take_append_drop]
  have hlen := congrArg List.length hdata
  rw [List.length_append] at hlen
  rw [htable]
  exact ⟨lt_of_le_of_lt (List.length_take_le' _ _) h.count, by have := h.data; omega⟩

/-- The puts of the pairs of a map, one after the other, into an engine that is reset. -/
lemma install_models {r : StorageEngine} (hr : Tidy r) {m : PlainMap} (hs : PairSizes m)
    (hroom : Room (tableOf m)) (n : ℕ) : ∃ e c, install r (m.entries.take n) = .ok e ∧
      Models e c (insertAll .empty (m.entries.take n)) ∧ EngineMap.Small c := by
  induction n with
  | zero => exact ⟨_, _, rfl, hr.reset, by unfold EngineMap.Small; decide⟩
  | succ n ih =>
    obtain ⟨e, c, hinstall, hm, hsmall⟩ := ih
    rcases hget : m.entries[n]? with _ | ⟨k, v⟩
    · have hall : m.entries.take (n + 1) = m.entries.take n := by
        have hlen := List.getElem?_eq_none_iff.mp hget
        rw [List.take_of_length_le hlen, List.take_of_length_le (by omega)]
      rw [hall]
      exact ⟨e, c, hinstall, hm, hsmall⟩
    · have hsnoc : m.entries.take (n + 1) = m.entries.take n ++ [(k, v)] := by
        rw [List.take_add_one, hget]
        rfl
      have hmap : insertAll .empty (m.entries.take (n + 1)) =
          applyTo (insertAll .empty (m.entries.take n)) (.put k v) := by
        rw [hsnoc, insertAll, List.foldl_append]
        rfl
      have hsizes : Sizes (.put k v) := by
        obtain ⟨hk, hv⟩ := hs k v (m.mem_entries.mp (List.mem_of_getElem? hget))
        exact ⟨hk, hv⟩
      obtain ⟨⟨e', hout, hm'⟩, -⟩ := mutate_spec hm hsizes
        (room_of_small hsmall hsizes hm.holds.stored.recs) (hmap ▸ room_take hroom (n + 1))
      refine ⟨e', _, ?_, hmap ▸ hm', small_settled _ _⟩
      rw [hsnoc, install, List.foldlM_append, ← install, hinstall]
      show (e.put k v).2 >>= pure = _
      rw [bind_pure]
      exact hout

lemma decode_dump {m : PlainMap} (hs : PairSizes m) (hlen : m.entries.length < 2 ^ 32) :
    decodeSnapshot (encodeSnapshot m.entries) = .ok m.entries := by
  refine run_eq_ok.mpr ⟨[], ?_⟩
  have hpair : ∀ kv ∈ m.entries, ∀ t, readPair (encPair kv ++ t) = .ok (kv, t) := by
    intro kv hkv t
    obtain ⟨hk, hv⟩ := hs kv.1 kv.2 (m.mem_entries.mp hkv)
    exact readPair_encPair (by omega) (by omega) t
  have hread := vec_encVec corruptSnapshot hpair hlen []
  rwa [List.append_nil] at hread

/-- **A transfer is exact**: the receiver answers every `Get` and every `Scan` as the sender
does, whatever it held before. -/
theorem transfer_exact {s r : StorageEngine} (hs : Lived (fun e mv => mv.Fits e) s)
    (hr : Lived (fun _ _ => True) r) (hroom : Room (tableOf (contents s))) :
    ∃ e, restoreFrom r (dump s) = .ok (.ok e) ∧
      (∀ k, e.get k = s.get k) ∧ ∀ p, e.scan p = s.scan p := by
  obtain ⟨c, hholds, hk⟩ := sound_of_lived hs
  have hm := models_of_holds hholds hk
  rw [contents_eq hm] at hroom
  have hscan : s.scan [] = (liveMap c).entries := by
    rw [hm.answers.scan, List.filter_eq_self.mpr fun kv _ => by simp]
  have hcount : (liveMap c).entries.length < 2 ^ 32 := by
    have := hroom.count
    rwa [tableOf, List.length_map] at this
  obtain ⟨e, c', hinstall, hm', -⟩ :=
    install_models (tidy_of_lived hr) hm.sizes hroom (liveMap c).entries.length
  rw [List.take_length] at hinstall hm'
  rw [insertAll_entries] at hm'
  refine ⟨e, ?_, fun k => ?_, fun p => ?_⟩
  · rw [restoreFrom, dump, hscan, decode_dump hm.sizes hcount]
    show Except.ok (install r _) = _
    rw [hinstall]
  · rw [hm.answers.get, hm'.answers.get]
  · rw [hm.answers.scan, hm'.answers.scan]

def moveOf : Op → Move
  | .write mu => .write mu
  | .reset => .reset

lemma lived_run {ok : StorageEngine → Move → Prop} {ops : List Op} {e : StorageEngine}
    (h : run ops = .ok e)
    (hok : ∀ ops' op e', ops' ++ [op] <+: ops → run ops' = .ok e' → ok e' (moveOf op)) :
    Lived ok e := by
  induction ops using List.reverseRecOn generalizing e with
  | nil =>
    have hrun : run [] = openEngine emptyDisk := bind_pure _
    exact ⟨e, by rw [← hrun, h], .refl⟩
  | append_singleton ops op ih =>
    rw [run_append] at h
    obtain ⟨e', he', hstep⟩ := bind_eq_ok.mp h
    obtain ⟨e₀, hopen, hreach⟩ := ih he' fun ops' op' e'' hp =>
      hok ops' op' e'' (hp.trans (List.prefix_append _ _))
    refine ⟨e₀, hopen, hreach.tail (hok ops op e' List.prefix_rfl he') ?_⟩
    cases op with
    | write mu => exact .write hstep
    | reset =>
      cases hstep
      exact .reset

/-- The engine after a move, where it is one. -/
def moved (e : StorageEngine) : Move → Option StorageEngine
  | .write mu => (mutate e mu).2.toOption
  | .reset => some e.reset
  | .restart => (openEngine e.disk).toOption
  | .crash mu p => do
    let i ← (mutate e mu).1.find? fun i => i.1 = p
    (openEngine i.2).toOption
  | .crashReset n => (openEngine (resetDisk e n)).toOption

lemma moves_of_moved {e e' : StorageEngine} {mv : Move} (h : moved e mv = some e') :
    Moves e mv e' := by
  cases mv with
  | write mu => exact .write (eq_ok h)
  | reset =>
    cases h
    exact .reset
  | restart => exact .restart (eq_ok h)
  | crash mu p =>
    obtain ⟨i, hi, hopen⟩ := Option.bind_eq_some_iff.mp h
    have hp : i.1 = p := by simpa using List.find?_some hi
    subst hp
    exact .crash (List.mem_of_find?_eq_some hi) (eq_ok hopen)
  | crashReset n => exact .crashReset (eq_ok h)

instance decidableFitting (e : StorageEngine) (mu : Mutation) : Decidable (Fitting e mu) :=
  decidable_of_iff (Sizes mu ∧ Room (e.memtable.replay mu.record).entries ∧
      Room (tableOf (applyTo (contents e) mu)))
    ⟨fun h => ⟨h.1, h.2.1, h.2.2⟩, fun h => ⟨h.sizes, h.memtable, h.merged⟩⟩

/-- `Move.Fits`, decided. -/
def fits (e : StorageEngine) : Move → Bool
  | .write mu => decide (Fitting e mu)
  | .crash mu _ => decide (Fitting e mu)
  | _ => true

lemma Move.fits_of {e : StorageEngine} {mv : Move} (h : fits e mv = true) : mv.Fits e := by
  cases mv with
  | write mu => exact of_decide_eq_true (p := Fitting e mu) h
  | crash mu p => exact of_decide_eq_true (p := Fitting e mu) h
  | _ => trivial

/-- The engine behind moves that all fit. -/
def living (mvs : List Move) : Option StorageEngine :=
  (openEngine emptyDisk).toOption.bind fun e => runIf? moved (fun e mv => fits e mv = true) e mvs

lemma lived_of_living {mvs : List Move} {e : StorageEngine} (h : living mvs = some e) :
    Lived (fun e mv => mv.Fits e) e := by
  obtain ⟨e₀, hopen, hmoves⟩ := Option.bind_eq_some_iff.mp h
  have hrun := reach_runIf? hmoves
  clear h hmoves
  refine ⟨e₀, eq_ok hopen, ?_⟩
  induction hrun with
  | refl => exact .refl
  | tail _ hok hs ih => exact ih.tail (Move.fits_of hok) (moves_of_moved hs)

/-- Two tables with tombstones stand above the one a crash has left, and the log has records that
a restart has read back. -/
def senderMoves : List Move :=
  [.write (.put [97] [1]), .write (.put [98] [2]), .write (.put [99] [3]),
    .crash (.put [100] [4]) .flushRename,
    .write (.delete [97]), .write (.put [101] [5]), .write (.delete [98]), .write (.put [102] []),
    .write (.put [99] [6]), .write (.delete [101]), .write (.put [103] [7]), .restart]

/-- A table and records of keys that the sender has, has deleted or has never had. -/
def receiverMoves : List Move :=
  [.write (.put [97] [9]), .write (.put [99] [9]), .write (.put [104] [9]),
    .write (.put [105] [9]), .write (.delete [105]), .write (.put [101] [9])]

/-- The receiver forgets what it held, the deleted keys stay deleted. -/
theorem transfer_exact_tables : ∃ s r e, living senderMoves = some s ∧
    living receiverMoves = some r ∧ s.sstables.length = 3 ∧ r.sstables.length = 1 ∧
    (s.get [97] = none ∧ r.get [97] = some [9]) ∧
    (s.get [104] = none ∧ r.get [104] = some [9]) ∧
    restoreFrom r (dump s) = .ok (.ok e) ∧
      (∀ k, e.get k = s.get k) ∧ ∀ p, e.scan p = s.scan p := by
  obtain ⟨s, hs, hslen, hsa, hsh, hroom⟩ := exists_of_any (x := living senderMoves)
    (P := fun s => s.sstables.length = 3 ∧ s.get [97] = none ∧ s.get [104] = none ∧
      Room (tableOf (contents s))) (by decide +kernel)
  obtain ⟨r, hr, hrlen, hra, hrh⟩ := exists_of_any (x := living receiverMoves)
    (P := fun r => r.sstables.length = 1 ∧ r.get [97] = some [9] ∧ r.get [104] = some [9])
    (by decide +kernel)
  obtain ⟨e, hrestore, hget, hscan⟩ := transfer_exact (lived_of_living hs)
    ((lived_of_living hr).imp fun _ h => ⟨h.1, h.2.mono fun _ _ _ => trivial⟩) hroom
  exact ⟨s, r, e, hs, hr, hslen, hrlen, ⟨hsa, hra⟩, ⟨hsh, hrh⟩, hrestore, hget, hscan⟩

/-! ### Where the count ends -/

/-- All but one of `2 ^ 32` keys are put, a delete makes the engine compact, and the last key
goes into the memtable. -/
def crowd : List Op :=
  fill (2 ^ 32 - 1) ++ [.write (.delete [0])] ++ [.write (.put (Bytes.le 4 (2 ^ 32 - 1)) [])]

lemma sized_crowd {op : Op} (h : op ∈ crowd) : (moveOf op).Sized := by
  rcases List.mem_append.mp h with h | h
  · rcases List.mem_append.mp h with h | h
    · obtain ⟨i, -, rfl⟩ := List.mem_map.mp h
      exact sizes_fill i
    · obtain rfl := List.mem_singleton.mp h
      exact ⟨by decide, by decide⟩
  · obtain rfl := List.mem_singleton.mp h
    exact sizes_fill _

lemma run_crowd : ∃ e c m, run crowd = .ok e ∧ Models e c m ∧ m.size = 2 ^ 32 := by
  obtain ⟨e, c, he, hf⟩ := run_fill (n := 2 ^ 32 - 1) (by norm_num)
  generalize hn : (2 ^ 32 - 1 : ℕ) = n at *
  have hcrowd : crowd = fill n ++ [.write (.delete [0])] ++ [.write (.put (Bytes.le 4 n) [])] := by
    rw [crowd, hn]
  have hlen : ∀ i, ([0] : Bytes) ≠ Bytes.le 4 i := fun i h => by
    have := congrArg List.length h
    simp at this
  have hsizes : Sizes (.delete [0]) := ⟨by decide, by decide⟩
  have hsame : applyTo (plain (fill n)) (.delete [0]) = plain (fill n) := by
    refine ext_find fun k => ?_
    rw [find_applyTo]
    split_ifs with hk
    · rcases hfind : (plain (fill n)).find k with _ | v
      · rfl
      · obtain ⟨-, i, -, hi⟩ := find_plain_fill hfind
        exact absurd (hk.symm.trans hi) (hlen i)
    · rfl
  -- the delete fills the memtable, so that it is flushed and all tables are merged
  obtain ⟨⟨e₁, hout₁, hm₁⟩, -⟩ := mutate_spec hf.models hsizes
    (room_of_small hf.small hsizes hf.models.holds.stored.recs)
    (by rw [hsame]; exact room_fill (by omega))
  rw [hsame] at hm₁
  have hmem : (memOf (afterLog c (.delete [0])).2).size = 4 := by
    have hnew : (memOf c.2).find [0] = none := by
      rcases hfind : (memOf c.2).find [0] with _ | v
      · rfl
      · obtain ⟨i, -, hi⟩ := hf.keys [0] (by rw [hfind]; rfl)
        exact absurd hi (hlen i)
    rw [afterLog, memOf_append, replay_eq]
    have hsize := size_insert_of_find (memOf c.2) (entryOf (Mutation.delete [0]).record) hnew
    have hold := hf.mem
    show (OrdMap.insert (memOf c.2) [0] _).size = 4
    rw [hsize]
    omega
  have htabs : (afterLog c (.delete [0])).1.length = 3 := by
    have htabs := hf.tabs
    show c.1.length = 3
    rw [htabs, tableCount, ← hn]
    norm_num
  have hsettled : settled (afterLog c (.delete [0])) e.nextSeq =
      ([(e.nextSeq + 1, compacted (afterLog c (.delete [0])))], []) := by
    unfold settled
    rw [if_neg (by rw [hmem]; decide), if_neg (by rw [htabs]; decide)]
  rw [hsettled] at hm₁
  -- the last key stays in the memtable
  set mu : Mutation := .put (Bytes.le 4 n) [] with hmu
  have hlast : Sizes mu := sizes_fill n
  have hholds := hm₁.holds.logged (recordOk hlast)
  have hout₂ : (mutate e₁ mu).2 = .ok (logged e₁ mu.record) := by
    rw [mutate_eq]
    unfold StorageEngine.flushIfFull
    rw [if_neg]
    have hone : (logged e₁ mu.record).memtable = memOf ([] ++ [mu.record]) := hholds.mem
    rw [hone, List.nil_append]
    show ¬ (OrdMap.insert (OrdMap.empty : Memtable) _ _).size ≥ 4
    rw [size_insert_of_find _ _ (find_empty _)]
    decide
  refine ⟨_, afterLog ([(e.nextSeq + 1, compacted (afterLog c (.delete [0])))], []) mu,
    plain (fill (n + 1)), ?_, ⟨hholds, fun k => ?_, ?_⟩, ?_⟩
  · rw [hcrowd, run_append, run_append, he]
    show (mutate e (.delete [0])).2 >>= _ = _
    rw [hout₁]
    exact hout₂
  · rw [plain_fill_succ]
    exact value_afterLog hm₁.agrees mu k
  · rw [plain_fill_succ]
    exact pairSizes_applyTo hm₁.sizes hlast
  · rw [size_plain_fill (by omega)]
    omega

/-- **The count of a dump wraps**: the dump of `2 ^ 32` pairs counts none, and the receiver is
left empty. -/
theorem dump_count_wraps : ¬ ∀ s r, Lived (fun _ mv => mv.Sized) s →
    Lived (fun _ mv => mv.Sized) r → ∃ e, restoreFrom r (dump s) = .ok (.ok e) ∧
      (∀ k, e.get k = s.get k) ∧ ∀ p, e.scan p = s.scan p := by
  intro h
  obtain ⟨s, c, m, hs, hm, hsize⟩ := run_crowd
  obtain ⟨r, hr, hmr⟩ := run_nil
  have hlived : Lived (fun _ mv => mv.Sized) s := lived_run hs fun ops' op _ hp _ =>
    sized_crowd (hp.subset (List.mem_append_right _ List.mem_cons_self))
  obtain ⟨e, he, hget, hscan⟩ := h s r hlived (lived_run hr fun ops' op _ hp _ => by
    have := hp.length_le
    simp at this)
  have hall : s.scan [] = m.entries := by
    rw [hm.answers.scan, List.filter_eq_self.mpr fun kv _ => by simp]
  have hcount : Bytes.le 4 m.entries.length = Bytes.le 4 0 := by
    have hlen : m.entries.length = 2 ^ 32 := hsize
    rw [hlen]
    rfl
  have hnone : decodeSnapshot (dump s) = .ok [] := by
    refine run_eq_ok.mpr ⟨m.entries.flatMap encPair, ?_⟩
    rw [dump, hall, encodeSnapshot, encVec, hcount]
    rfl
  rw [restoreFrom, hnone] at he
  have heq : e = r.reset := by
    have : Except.ok (install r []) = Except.ok (.ok e) := he
    cases this
    rfl
  have hempty := (reset_models hmr).answers.scan []
  rw [← heq, hscan, hall] at hempty
  have hlen : m.entries.length = 0 := by rw [hempty]; rfl
  have hsize' : m.entries.length = 2 ^ 32 := hsize
  omega

end DistDB.EngineSnapshot
