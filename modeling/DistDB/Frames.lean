import DistDB.Wire

/-!
Messages on a connection, from `raft/transport.cpp`: a message goes behind its length, and both
sides loop over a socket that takes and gives as many bytes at a time as it likes.

However the bytes are cut into pieces, a message is read as it was written
(`readFramedMessage_iff`).
-/

namespace DistDB.Frames

open Bytes Checks

def closedReading : Exception :=
  .runtimeError (text "connection closed or timed out while reading")

def closedWriting : Exception :=
  .runtimeError (text "connection closed or timed out while writing")

/-- `RecvExact`, with the pieces that arrive. None is left, or an empty one comes, when the
connection is closed or the time is over. -/
def recvExact : List Bytes → ℕ → Except Exception (Bytes × List Bytes)
  | pieces, 0 => .ok ([], pieces)
  | [], _ + 1 => .error closedReading
  | piece :: pieces, len + 1 =>
    if piece = [] then .error closedReading
    else if len + 1 < piece.length then
      .ok (piece.take (len + 1), piece.drop (len + 1) :: pieces)
    else do
      let (rest, pieces) ← recvExact pieces (len + 1 - piece.length)
      return (piece ++ rest, pieces)

/-- `SendExact`, with how many bytes the socket takes at each call: what has been sent, and what is
left of the calls. -/
def sendExact : List ℕ → Bytes → Bytes × Except Exception (List ℕ)
  | takes, [] => ([], .ok takes)
  | [], _ :: _ => ([], .error closedWriting)
  | n :: takes, c :: data =>
    if n = 0 then ([], .error closedWriting)
    else
      let (sent, left) := sendExact takes ((c :: data).drop n)
      ((c :: data).take n ++ sent, left)

/-- `ReadFramedMessage`, where `recv` takes an `int`, which a length from `2 ^ 31` on is not. Where
it takes a `size_t` such a length is no exception, and as many bytes are read. -/
def readFramedMessage (pieces : List Bytes) : Except Exception (Bytes × List Bytes) := do
  let (head, pieces) ← recvExact pieces 4
  throwIf (2 ^ 31 ≤ val head) .undefined
  recvExact pieces (val head)

/-- `WriteFramedMessage`: what has been sent, and whether it throws. A length from `2 ^ 31` on is
an exception where `send` takes an `int`, not where it takes a `size_t`. -/
def writeFramedMessage (takes : List ℕ) (body : Bytes) : Bytes × Except Exception Unit :=
  let len := body.length % 2 ^ 32
  match sendExact takes (le 4 len) with
  | (sent, .error e) => (sent, .error e)
  | (sent, .ok takes) =>
    if 2 ^ 31 ≤ len then (sent, .error .undefined)
    else
      let (sent', left) := sendExact takes (body.take len)
      (sent ++ sent', left.map fun _ => ())

lemma sendExact_sends (takes : List ℕ) (data : Bytes) : (sendExact takes data).1 <+: data ∧
    ∀ left, (sendExact takes data).2 = .ok left → (sendExact takes data).1 = data := by
  induction takes generalizing data with
  | nil =>
    cases data with
    | nil => exact ⟨List.prefix_refl _, fun _ _ => rfl⟩
    | cons c data => exact ⟨List.nil_prefix, fun left h => by cases h⟩
  | cons n takes ih =>
    cases data with
    | nil => exact ⟨List.prefix_refl _, fun _ _ => rfl⟩
    | cons c data =>
      obtain ⟨hpre, hall⟩ := ih ((c :: data).drop n)
      unfold sendExact
      split_ifs
      · exact ⟨List.nil_prefix, fun left h => by cases h⟩
      · refine ⟨?_, fun left h => ?_⟩
        · conv_rhs => rw [← List.take_append_drop n (c :: data)]
          exact List.prefix_append_right_inj _ |>.mpr hpre
        · dsimp only at h ⊢
          rw [hall left h, List.take_append_drop]

/-- What `WriteFramedMessage` puts on the wire. From `2 ^ 32` on, the length wraps and the body is
cut. -/
def frame (body : Bytes) : Bytes :=
  le 4 (body.length % 2 ^ 32) ++ body.take (body.length % 2 ^ 32)

lemma writeFramedMessage_sends (takes : List ℕ) (body : Bytes) :
    (writeFramedMessage takes body).1 <+: frame body ∧
      ((writeFramedMessage takes body).2 = .ok () →
        (writeFramedMessage takes body).1 = frame body ∧
        body.length % 2 ^ 32 < 2 ^ 31) := by
  obtain ⟨hpre, hall⟩ := sendExact_sends takes (le 4 (body.length % 2 ^ 32))
  unfold writeFramedMessage frame
  dsimp only
  split
  · rename_i sent e heq
    rw [heq] at hpre
    exact ⟨hpre.trans (List.prefix_append _ _), fun h => by cases h⟩
  · rename_i sent takes' heq
    rw [heq] at hall
    have hsent : sent = le 4 (body.length % 2 ^ 32) := hall takes' rfl
    obtain ⟨hpre', hall'⟩ := sendExact_sends takes' (body.take (body.length % 2 ^ 32))
    split_ifs with hlen
    · exact ⟨hsent ▸ List.prefix_append _ _, fun h => by cases h⟩
    · rw [hsent]
      refine ⟨(List.prefix_append_right_inj _).mpr hpre', fun h => ⟨?_, by omega⟩⟩
      dsimp only at h ⊢
      cases hleft : (sendExact takes' (body.take (body.length % 2 ^ 32))).2 with
      | error e =>
        rw [hleft] at h
        cases h
      | ok left => rw [hall' left hleft]

/-! ### Receiving -/

lemma of_recvExact {pieces pieces' : List Bytes} {len : ℕ} {data : Bytes}
    (h : recvExact pieces len = .ok (data, pieces')) :
    pieces.flatten = data ++ pieces'.flatten ∧ data.length = len := by
  induction pieces generalizing len data with
  | nil =>
    cases len with
    | zero =>
      cases h
      exact ⟨rfl, rfl⟩
    | succ len => cases h
  | cons piece pieces ih =>
    cases len with
    | zero =>
      cases h
      exact ⟨rfl, rfl⟩
    | succ len =>
      unfold recvExact at h
      split_ifs at h with hnil hlong
      · cases h
        refine ⟨?_, List.length_take_of_le hlong.le⟩
        rw [List.flatten_cons, List.flatten_cons, ← List.append_assoc, List.take_append_drop]
      · obtain ⟨⟨rest, left⟩, hrest, hpure⟩ := bind_eq_ok.mp h
        cases hpure
        obtain ⟨hflat, hlen⟩ := ih hrest
        refine ⟨?_, ?_⟩
        · rw [List.flatten_cons, hflat, List.append_assoc]
        · rw [List.length_append, hlen]
          omega

lemma recvExact_of {pieces : List Bytes} {data rest : Bytes} (hne : [] ∉ pieces)
    (h : pieces.flatten = data ++ rest) : ∃ pieces',
      recvExact pieces data.length = .ok (data, pieces') ∧ pieces'.flatten = rest ∧
        [] ∉ pieces' := by
  induction pieces generalizing data with
  | nil =>
    obtain ⟨rfl, rfl⟩ := List.append_eq_nil_iff.mp h.symm
    exact ⟨[], rfl, rfl, hne⟩
  | cons piece pieces ih =>
    cases hdata : data with
    | nil =>
      refine ⟨piece :: pieces, rfl, ?_, hne⟩
      rw [h, hdata]
      rfl
    | cons c data' =>
      rw [← hdata]
      have hpiece : piece ≠ [] := fun hnil => hne (hnil ▸ List.mem_cons_self)
      have hlen : data.length = data'.length + 1 := by rw [hdata, List.length_cons]
      rw [List.flatten_cons] at h
      rw [hlen]
      unfold recvExact
      rw [if_neg hpiece, ← hlen]
      split_ifs with hlong
      · obtain ⟨tail, htail⟩ := List.prefix_of_prefix_length_le
          (List.prefix_append data rest) (h ▸ List.prefix_append piece pieces.flatten) hlong.le
        refine ⟨piece.drop data.length :: pieces, ?_, ?_, ?_⟩
        · rw [← htail, List.take_left]
        · rw [List.flatten_cons]
          rw [← htail, List.append_assoc] at h
          rw [← htail, List.drop_left]
          exact List.append_cancel_left h
        · intro hmem
          rcases List.mem_cons.mp hmem with hnil | hmem
          · rw [eq_comm, List.drop_eq_nil_iff] at hnil
            omega
          · exact hne (List.mem_cons_of_mem _ hmem)
      · obtain ⟨tail, htail⟩ := List.prefix_of_prefix_length_le
          (h ▸ List.prefix_append piece pieces.flatten) (List.prefix_append data rest)
          (Nat.not_lt.mp hlong)
        rw [← htail, List.append_assoc] at h
        obtain ⟨pieces', hrecv, hflat, hne'⟩ :=
          ih (fun hmem => hne (List.mem_cons_of_mem _ hmem)) (List.append_cancel_left h)
        have hsub : data.length - piece.length = tail.length := by
          rw [← htail, List.length_append, Nat.add_sub_cancel_left]
        refine ⟨pieces', ?_, hflat, hne'⟩
        rw [hsub, hrecv, ← htail]
        rfl

lemma frame_of_short {body : Bytes} (h : body.length < 2 ^ 32) :
    frame body = le 4 body.length ++ body := by
  unfold frame
  rw [Nat.mod_eq_of_lt h, List.take_length]

lemma of_readFramedMessage {pieces pieces' : List Bytes} {body : Bytes}
    (h : readFramedMessage pieces = .ok (body, pieces')) :
    pieces.flatten = frame body ++ pieces'.flatten ∧ body.length < 2 ^ 31 := by
  obtain ⟨⟨head, left⟩, hhead, hrest⟩ := bind_eq_ok.mp h
  obtain ⟨u, hlen, hbody⟩ := bind_eq_ok.mp hrest
  obtain ⟨hflat, hfour⟩ := of_recvExact hhead
  obtain ⟨hflat', hval⟩ := of_recvExact hbody
  have hsmall : val head < 2 ^ 31 := Nat.not_le.mp (throwIf_eq_ok.mp hlen)
  have hle : le 4 (val head) = head := hfour ▸ le_val head
  refine ⟨?_, hval ▸ hsmall⟩
  rw [hflat, hflat', frame_of_short (by omega), hval, hle, List.append_assoc]

lemma readFramedMessage_of {pieces : List Bytes} (hne : [] ∉ pieces) {body rest : Bytes}
    (hflat : pieces.flatten = frame body ++ rest) (hlen : body.length < 2 ^ 31) :
    ∃ pieces', readFramedMessage pieces = .ok (body, pieces') ∧ pieces'.flatten = rest := by
  rw [frame_of_short (by omega), List.append_assoc] at hflat
  obtain ⟨left, hhead, hflat', hne'⟩ := recvExact_of hne hflat
  obtain ⟨pieces', hbody, hrest, -⟩ := recvExact_of hne' hflat'
  have hval : val (le 4 body.length) = body.length := val_le_of_lt (by omega)
  rw [length_le] at hhead
  refine ⟨pieces', ?_, hrest⟩
  unfold readFramedMessage
  rw [bind_of_ok hhead]
  dsimp only
  rw [hval, bind_of_ok (a := ()) (throwIf_eq_ok.mpr (by omega)), hbody]

/-- **However it is cut**, a message is read as it was written, and what comes behind it is left;
and nothing else is taken for a message. -/
theorem readFramedMessage_iff {pieces : List Bytes} (hne : [] ∉ pieces) {body rest : Bytes} :
    (∃ pieces', readFramedMessage pieces = .ok (body, pieces') ∧ pieces'.flatten = rest) ↔
      pieces.flatten = frame body ++ rest ∧ body.length < 2 ^ 31 := by
  constructor
  · rintro ⟨pieces', h, rfl⟩
    exact of_readFramedMessage h
  · rintro ⟨hflat, hlen⟩
    exact readFramedMessage_of hne hflat hlen

/-- Two messages in one piece and a half of the third: the first is read. -/
theorem readFramedMessage_iff_pieces : ∃ pieces',
    readFramedMessage [[1, 0, 0], [0, 9, 1], [0, 0, 0, 8, 2, 0]] = .ok ([9], pieces') ∧
      pieces'.flatten = [1, 0, 0, 0, 8, 2, 0] :=
  (readFramedMessage_iff (by decide)).mpr ⟨by decide, by decide⟩

lemma of_frame_ahead {b body rest : Bytes} (hlen : b.length < 2 ^ 31)
    (h : frame b ++ rest <+: frame body) :
    b = body.take (body.length % 2 ^ 32) ∧ rest = [] := by
  obtain ⟨tail, htail⟩ := h
  rw [frame_of_short (by omega), frame, List.append_assoc, List.append_assoc] at htail
  obtain ⟨hhead, hbody⟩ := List.append_inj htail (by rw [length_le, length_le])
  have hmod : body.length % 2 ^ 32 < 2 ^ 32 := Nat.mod_lt _ (by decide)
  have hsame : b.length = body.length % 2 ^ 32 := by
    have hval := congrArg val hhead
    rwa [val_le_of_lt (by omega), val_le_of_lt hmod] at hval
  have htake : (body.take (body.length % 2 ^ 32)).length = body.length % 2 ^ 32 :=
    List.length_take_of_le (Nat.mod_le _ _)
  obtain ⟨hb, hrest⟩ := List.append_inj
    (hbody.trans (List.append_nil _).symm) (hsame.trans htake.symm)
  exact ⟨hb, (List.append_eq_nil_iff.mp hrest).1⟩

lemma take_mod_cases (body : Bytes) : body.take (body.length % 2 ^ 32) = body ∨
    (body.take (body.length % 2 ^ 32) <+: body ∧ body.take (body.length % 2 ^ 32) ≠ body) := by
  by_cases h : body.length < 2 ^ 32
  · rw [Nat.mod_eq_of_lt h, List.take_length]
    exact .inl rfl
  · refine .inr ⟨List.take_prefix _ _, fun heq => ?_⟩
    have hlen := congrArg List.length heq
    rw [List.length_take_of_le (Nat.mod_le _ _)] at hlen
    have hmod := Nat.mod_lt body.length (show 0 < 2 ^ 32 by decide)
    omega

end DistDB.Frames
