import Mathlib.Data.List.TakeWhile
import DistDB.Checks
import DistDB.FormattedInput
import DistDB.Lines
import DistDB.NodeModel

/-!
Peer lists as text, `id=host:port,id=host:port`: `ParsePeerSpec` and `FormatPeerSpec` of
`raft/membership_state.cpp`, the first of which is also in `shard/routing.cpp`.

A host stands there as it is. So a list is read back as it was written unless some host has one
of the two separators behind it, `:` or `,` (`parse_format`), and what is read has neither of them
in a host (`parse_clean`).
-/

namespace DistDB.PeerSpec

open Checks FormattedInput Lines NodeModel

/-- What is in front of the first `c`, and what is behind it. -/
def cut (c : UInt8) (s : Bytes) : Option (Bytes × Bytes) :=
  if c ∈ s then some (s.takeWhile (· ≠ c), (s.dropWhile (· ≠ c)).tail) else none

def badPeerSpec (entry : Bytes) : Thrown := .runtimeError (text "bad peer spec: " ++ entry)

/-- One entry of the list; the casts to `NodeId` and `uint16_t` cut the numbers. -/
def parsePeer (p : Platform) (entry : Bytes) : Except Thrown (NodeId × PeerAddress) :=
  match cut (chr '=') entry with
  | none => .error (badPeerSpec entry)
  | some (id, address) =>
    match cut (chr ':') address with
    | none => .error (badPeerSpec entry)
    | some (host, port) => do
      let id ← stoul p id
      let port ← stoul p port
      pure (id % 2 ^ 32, ⟨host, port % 2 ^ 16⟩)

def parsePeerSpec (p : Platform) (spec : Bytes) : Except Thrown (OrdMap NodeId PeerAddress) :=
  (((getlines (chr ',') spec).filter (· ≠ [])).mapM (parsePeer p)).map (OrdMap.insertAll .empty)

def formatPeer (peer : NodeId × PeerAddress) : Bytes :=
  toText peer.1 ++ chr '=' :: (peer.2.host ++ chr ':' :: toText peer.2.port)

def formatPeerSpec (peers : OrdMap NodeId PeerAddress) : Bytes :=
  [chr ','].intercalate (peers.entries.map formatPeer)

/-! ### One entry -/

lemma cut_append {c : UInt8} {a : Bytes} (h : c ∉ a) (b : Bytes) :
    cut c (a ++ c :: b) = some (a, b) := by
  have hall : ∀ d ∈ a, decide (d ≠ c) = true := fun d hd => by
    simpa using fun heq : d = c => h (heq ▸ hd)
  simp only [cut, List.mem_append, List.mem_cons, true_or, or_true, if_true, Option.some.injEq,
    Prod.mk.injEq]
  rw [List.takeWhile_append_of_pos hall, List.dropWhile_append_of_pos hall]
  simp

lemma cut_eq_some {c : UInt8} {s a b : Bytes} (h : cut c s = some (a, b)) :
    s = a ++ c :: b ∧ c ∉ a := by
  unfold cut at h
  split_ifs at h with hc
  cases h
  have hhead : ∃ rest, s.dropWhile (· ≠ c) = c :: rest := by
    cases hd : s.dropWhile (· ≠ c) with
    | nil =>
      rw [List.dropWhile_eq_nil_iff] at hd
      simpa using hd c hc
    | cons d rest =>
      have := List.head?_dropWhile_not (fun d => decide (d ≠ c)) s
      rw [hd] at this
      exact ⟨rest, by simpa using this⟩
  obtain ⟨rest, hrest⟩ := hhead
  constructor
  · rw [hrest, List.tail_cons, ← hrest]
    exact List.takeWhile_append_dropWhile.symm
  · intro hmem
    simpa using List.mem_takeWhile_imp hmem

lemma not_mem_toText {c : UInt8} (h : Decimal.isDigit c = false) (n : ℕ) : c ∉ toText n := by
  intro hc
  rw [Decimal.isDigit_toText hc] at h
  cases h

/-- The numbers fit their types. -/
def Fits (peer : NodeId × PeerAddress) : Prop := peer.1 < 2 ^ 32 ∧ peer.2.port < 2 ^ 16

/-- No separator stands in the host. -/
def Clean (host : Bytes) : Prop := chr ',' ∉ host ∧ chr ':' ∉ host

variable {p : Platform}

lemma parsePeer_formatPeer {peer : NodeId × PeerAddress} (hfits : Fits peer)
    (hclean : Clean peer.2.host) : parsePeer p (formatPeer peer) = .ok peer := by
  obtain ⟨id, host, port⟩ := peer
  obtain ⟨hid, hport⟩ := hfits
  dsimp only at hid hport hclean
  unfold parsePeer formatPeer
  rw [cut_append (not_mem_toText (by decide) id)]
  dsimp only
  rw [cut_append hclean.2]
  dsimp only
  rw [stoul_toText p hid, stoul_toText p (by omega)]
  change Except.ok (id % 2 ^ 32, (⟨host, port % 2 ^ 16⟩ : PeerAddress)) = _
  rw [Nat.mod_eq_of_lt hid, Nat.mod_eq_of_lt hport]

lemma parsePeer_eq_ok {entry : Bytes} {peer : NodeId × PeerAddress}
    (h : parsePeer p entry = .ok peer) :
    Fits peer ∧ chr ':' ∉ peer.2.host ∧ ∀ c ∈ peer.2.host, c ∈ entry := by
  unfold parsePeer at h
  split at h
  · cases h
  rename_i idText address hid
  split at h
  · cases h
  rename_i host portText hhost
  obtain ⟨id, -, h⟩ := bind_eq_ok.mp h
  obtain ⟨port, -, h⟩ := bind_eq_ok.mp h
  cases h
  obtain ⟨rfl, -⟩ := cut_eq_some hid
  obtain ⟨rfl, hcolon⟩ := cut_eq_some hhost
  refine ⟨⟨Nat.mod_lt _ (by omega), Nat.mod_lt _ (by omega)⟩, hcolon, fun c hc => ?_⟩
  simp [hc]

lemma formatPeer_ne_nil (peer : NodeId × PeerAddress) : formatPeer peer ≠ [] := by
  simp [formatPeer]

lemma comma_not_mem_formatPeer {peer : NodeId × PeerAddress} (h : chr ',' ∉ peer.2.host) :
    chr ',' ∉ formatPeer peer := by
  simp only [formatPeer, List.mem_append, List.mem_cons, not_or]
  exact ⟨not_mem_toText (by decide) _, by decide, h, by decide, not_mem_toText (by decide) _⟩

/-- **A list is read back** if no host has a separator in it. -/
theorem parse_format {peers : OrdMap NodeId PeerAddress}
    (h : ∀ peer ∈ peers.entries, Fits peer ∧ Clean peer.2.host) :
    parsePeerSpec p (formatPeerSpec peers) = .ok peers := by
  have hlines : getlines (chr ',') (formatPeerSpec peers) = peers.entries.map formatPeer := by
    refine getlines_intercalate (fun l hl => ?_) fun l hl => ?_
    · obtain ⟨peer, hpeer, rfl⟩ := List.mem_map.mp hl
      exact comma_not_mem_formatPeer (h peer hpeer).2.1
    · obtain ⟨peer, -, rfl⟩ := List.mem_map.mp hl
      exact formatPeer_ne_nil peer
  have hfilter : (peers.entries.map formatPeer).filter
      (· ≠ []) = peers.entries.map formatPeer := by
    rw [List.filter_eq_self]
    intro l hl
    obtain ⟨peer, -, rfl⟩ := List.mem_map.mp hl
    simpa using formatPeer_ne_nil peer
  have hread : ∀ l : List (NodeId × PeerAddress),
      (∀ peer ∈ l, Fits peer ∧ Clean peer.2.host) → (l.map formatPeer).mapM
      (parsePeer p) = .ok l := by
    intro l hl
    induction l with
    | nil => rfl
    | cons peer l ih =>
      obtain ⟨⟨hfits, hclean⟩, hl⟩ := List.forall_mem_cons.mp hl
      rw [List.map_cons, List.mapM_cons, parsePeer_formatPeer hfits hclean, ih hl]
      rfl
  rw [parsePeerSpec, hlines, hfilter, hread _ h]
  exact congrArg Except.ok peers.insertAll_entries

/-- What a list is read as: no host has a separator in it, nor anything that was not there. -/
theorem parse_clean {spec : Bytes} {peers : OrdMap NodeId PeerAddress}
    (h : parsePeerSpec p spec = .ok peers) {peer : NodeId × PeerAddress}
    (hpeer : peer ∈ peers.entries) :
    Fits peer ∧ Clean peer.2.host ∧ ∀ c ∈ peer.2.host, c ∈ spec := by
  unfold parsePeerSpec at h
  rcases hmap : ((getlines (chr ',') spec).filter (· ≠ [])).mapM (parsePeer p) with e | l
  · rw [hmap] at h
    cases h
  rw [hmap] at h
  cases h
  have hl : peer ∈ l := by
    rcases OrdMap.mem_of_find_insertAll .empty ((OrdMap.mem_entries _).mp hpeer) with hl | hnone
    · exact hl
    · cases hnone
  obtain ⟨entry, hentry, hparse⟩ := mem_mapM hmap peer hl
  obtain ⟨hline, -⟩ := List.mem_filter.mp hentry
  obtain ⟨hfits, hcolon, hmem⟩ := parsePeer_eq_ok hparse
  exact ⟨hfits, ⟨fun hc => not_mem_getlines hline (hmem _ hc), hcolon⟩,
    fun c hc => mem_of_mem_getlines hline (hmem c hc)⟩

end DistDB.PeerSpec
