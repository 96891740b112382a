import DistDB.LogPoison
import DistDB.Streaming
import DistDB.TxnLocks

/-!
What a committed command is taken for: `ApplyCommitted` asks whether it is a conf change, the
apply callback whether it is a control command of a transaction, and what is neither is SQL text.

The three formats share the byte strings. Their first bytes keep them apart: 1 and 0 are tags,
and no text that parses starts with either (`taken_for_what_it_is`).
-/

namespace DistDB.Dispatch

open NodeModel TxnModel LogPoison Codec Bytes Checks

/-- What is written into the log: a control command, a conf change, or SQL text. -/
inductive Command
  | prepare (p : TxnPrepare)
  | commit (txnId : ℕ)
  | abort (txnId : ℕ)
  | confChange (c : ConfChangeCommand)
  | sql (source : Bytes)

namespace Command

def encode : Command → Bytes
  | prepare p => encodeTxnPrepare p
  | commit txnId => encodeTxnCommit txnId
  | abort txnId => encodeTxnAbort txnId
  | confChange c => encodeConfChange c
  | sql source => source

/-- What `TryDecodeTxnControl` has to make of it. -/
def asControl : Command → Option TxnControlCommand
  | prepare p => some ⟨kPrepare, p.txnId, p.keys, p.commands⟩
  | commit txnId => some ⟨kCommit, txnId, [], []⟩
  | abort txnId => some ⟨kAbort, txnId, [], []⟩
  | confChange _ => none
  | sql _ => none

/-- What `TryDecodeConfChange` has to make of it. -/
def asConfChange : Command → Option ConfChangeCommand
  | prepare _ => none
  | commit _ => none
  | abort _ => none
  | confChange c => some c
  | sql _ => none

/-- Numbers are below the bounds of their types, strings and lists are shorter than `2 ^ 32`, and
text is SQL. -/
def Fits : Command → Prop
  | prepare p => p.txnId < 2 ^ 64 ∧ p.Fits
  | commit txnId => txnId < 2 ^ 64
  | abort txnId => txnId < 2 ^ 64
  | confChange c => c.type < 2 ^ 8 ∧ c.serverId < 2 ^ 32 ∧
      c.host.length < 2 ^ 32 ∧ c.port < 2 ^ 16
  | sql source => ∃ stmt, SqlParser.parse source = .ok stmt

end Command

/-! ### Decoding -/

lemma not_control {command : Bytes} (h : command.head? ≠ some 0) :
    tryDecodeTxnControl command = .ok none := if_neg h

lemma not_confChange {command : Bytes} (h : command.head? ≠ some 1) :
    tryDecodeConfChange command = .ok none := if_neg h

lemma head_encodeControl (type txnId : ℕ) (body : Bytes) :
    (encodeControl type txnId ++ body).head? = some 0 := by
  rw [encodeControl, List.append_assoc, List.append_assoc]
  rfl

lemma head_encodeConfChange (c : ConfChangeCommand) : (encodeConfChange c).head? = some 1 := by
  simp only [encodeConfChange, List.append_assoc]
  rfl

lemma tryDecode_confChange {c : ConfChangeCommand} (h : (Command.confChange c).Fits) :
    tryDecodeConfChange (encodeConfChange c) = .ok (some c) := by
  obtain ⟨htype, hid, hhost, hport⟩ := h
  have hread : readConfChange (encodeConfChange c) = .ok (c, []) := by
    rw [← List.append_nil (encodeConfChange c)]
    simp only [encodeConfChange, List.append_assoc]
    rw [readConfChange, (readsBack_num (by decide)).step, (readsBack_num htype).step,
      (readsBack_num hid).step, (readsBack_str hhost).step, (readsBack_num hport).step]
    rfl
  rw [tryDecodeConfChange, if_pos (head_encodeConfChange c), run_eq_ok.mpr ⟨[], hread⟩]
  rfl

lemma head_of_parse {source : Bytes} {stmt : SqlParser.Statement}
    (h : SqlParser.parse source = .ok stmt) : source.head? ≠ some 0 ∧
    source.head? ≠ some 1 := by
  cases source with
  | nil => simp
  | cons c rest =>
    have hne : ¬ (c = 0 ∨ c = 1) := fun hc => by
      rw [parse_tagged hc] at h
      cases h
    rw [not_or] at hne
    simpa using hne

/-- **A command is taken for what it is**: a control command and a conf change are read back by
their own decoder and passed over by the other, and text that parses is passed over by both. -/
theorem taken_for_what_it_is {c : Command} (h : c.Fits) :
    tryDecodeTxnControl c.encode = .ok c.asControl ∧
      tryDecodeConfChange c.encode = .ok c.asConfChange := by
  have hcontrol : ∀ type txnId body,
      tryDecodeConfChange (encodeControl type txnId ++ body) = .ok none := by
    intro type txnId body
    exact not_confChange (by rw [head_encodeControl]; decide)
  cases c with
  | prepare p =>
    refine ⟨tryDecode_prepare h.1 h.2, ?_⟩
    show tryDecodeConfChange (encodeTxnPrepare p) = _
    rw [encodeTxnPrepare, List.append_assoc]
    exact hcontrol _ _ _
  | commit txnId =>
    refine ⟨tryDecode_resolution (.inl rfl) h, ?_⟩
    have hnone := hcontrol kCommit txnId []
    rwa [List.append_nil] at hnone
  | abort txnId =>
    refine ⟨tryDecode_resolution (.inr rfl) h, ?_⟩
    have hnone := hcontrol kAbort txnId []
    rwa [List.append_nil] at hnone
  | confChange c =>
    exact ⟨not_control (by rw [Command.encode, head_encodeConfChange]; decide),
      tryDecode_confChange h⟩
  | sql source =>
    obtain ⟨stmt, hparse⟩ := h
    obtain ⟨hzero, hone⟩ := head_of_parse hparse
    exact ⟨not_control hzero, not_confChange hone⟩

/-- A PREPARE whose staged command looks like a conf change. -/
theorem taken_for_what_it_is_nested :
    tryDecodeTxnControl (encodeTxnPrepare ⟨7, [[1, 0], []], [[1, 2, 3]]⟩) =
        .ok (some ⟨kPrepare, 7, [[1, 0], []], [[1, 2, 3]]⟩) ∧
      tryDecodeConfChange (encodeTxnPrepare ⟨7, [[1, 0], []], [[1, 2, 3]]⟩) = .ok none :=
  taken_for_what_it_is (c := .prepare ⟨7, [[1, 0], []], [[1, 2, 3]]⟩)
    ⟨by decide, ⟨by decide, by decide⟩, by decide, by decide⟩

/-- Commands that are written alike are taken for the same. -/
theorem encode_inj {c c' : Command} (h : c.Fits) (h' : c'.Fits) (heq : c.encode = c'.encode) :
    c.asControl = c'.asControl ∧ c.asConfChange = c'.asConfChange := by
  obtain ⟨hcontrol, hconf⟩ := taken_for_what_it_is h
  obtain ⟨hcontrol', hconf'⟩ := taken_for_what_it_is h'
  rw [heq] at hcontrol hconf
  exact ⟨Except.ok.inj (hcontrol.symm.trans hcontrol'), Except.ok.inj (hconf.symm.trans hconf')⟩

end DistDB.Dispatch
