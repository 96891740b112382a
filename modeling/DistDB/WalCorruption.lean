import DistDB.CrcErrors
import DistDB.WalModel

/-!
A log in which the key and the value of one record were altered within four consecutive bytes:
the checksum of the record fails, and the replay ends in front of it (`corruption_caught`).

A length field holds 32 bits, so a log with a value of `2 ^ 32` bytes is not replayed up to the
altered record anyway (`long_value_ends_replay`).
-/

namespace DistDB.WalCorruption

open Bytes WalModel CrcErrors

/-- What stands behind the header of a record. -/
def payload (r : Record) : Bytes := r.key ++ (if r.type = kPut then r.value else [])

/-- The log of these appends, with other bytes in place of the payload of `m`. -/
def altered (before : List Mutation) (m : Mutation) (after : List Mutation)
    (body : Bytes) : Bytes :=
  encodeAll (before.map Mutation.record) ++
    (header m.record ++ body ++ encodeAll (after.map Mutation.record))

/-- The lengths of the key and the value fit their fields. -/
def Short (m : Mutation) : Prop := m.record.key.length < 2 ^ 32 ∧ m.record.value.length < 2 ^ 32

lemma Short.fits {m : Mutation} (h : Short m) : Fits m.record := Mutation.fits_record h.1 h.2

/-- The header tells where the key ends and the value, and the checksum is that of the payload. -/
lemma readRecord_altered {r : Record} (hr : Fits r) {body : Bytes}
    (h : DifferWithin 4 (payload r) body) (rest : Bytes) :
    readRecord (header r ++ body ++ rest) = none := by
  obtain ⟨key, value, rfl, hkey, hvalue⟩ : ∃ key value, body = key ++ value ∧
      key.length = r.key.length ∧
      value.length = (if r.type = kPut then r.value else []).length := by
    have hlen := h.length
    rw [payload, List.length_append] at hlen
    refine ⟨body.take r.key.length, body.drop r.key.length,
      (List.take_append_drop _ _).symm, ?_, ?_⟩
    · rw [List.length_take]
      omega
    · rw [List.length_drop]
      omega
  have hcrc : Crc32.crc32 (r.type.code :: (key ++ value)) ≠
      Crc32.crc32 (r.type.code :: payload r) := (crc32_ne (h.cons r.type.code)).symm
  have htake : (header r ++ (key ++ value) ++ rest).take headerSize = header r := by
    rw [List.append_assoc, ← length_header r, List.take_left]
  have hdrop : (header r ++ (key ++ value) ++ rest).drop headerSize = key ++ (value ++ rest) := by
    rw [List.append_assoc, ← length_header r, List.drop_left, List.append_assoc]
  unfold readRecord
  simp only [htake, hdrop, header_crc, header_keyLen hr, header_valueLen hr, header_type,
    length_header, ne_eq, not_true, if_false, ← hkey, List.take_left, List.drop_left]
  by_cases hput : r.type = kPut
  · rw [if_pos hput] at hvalue
    rw [payload, if_pos hput] at hcrc
    simp only [hput, if_true, ← hvalue, List.take_left, not_true, and_false, if_false]
    rw [if_pos]
    rw [← hput, checksumRecord, checksumRecord]
    exact fun heq => hcrc (BitVec.eq_of_toNat_eq heq)
  · rw [if_neg hput] at hvalue
    obtain rfl := List.length_eq_zero_iff.mp hvalue
    rw [payload, if_neg hput] at hcrc
    have hnil := hr.del hput
    simp only [hput, if_false, false_and]
    rw [if_pos]
    rw [checksumRecord, checksumRecord, hnil]
    exact fun heq => hcrc (BitVec.eq_of_toNat_eq heq)

/-- **Local corruption is caught**: the table computes the CRC-32, which sees every error within
four consecutive bytes, and so the replay of a log with such an error in the payload of a record
delivers the records before it and nothing else. -/
theorem corruption_caught : (∀ bytes, Crc32.crc32 bytes = crc32Bitwise bytes) ∧
    (∀ s s', DifferWithin 4 s s' → Crc32.crc32 s ≠ Crc32.crc32 s') ∧
    ∀ before m after body pos, (∀ m' ∈ before, Short m') → Short m →
      DifferWithin 4 (payload m.record) body →
        WriteAheadLog.replayed ⟨altered before m after body, pos⟩ =
          before.map Mutation.record := by
  refine ⟨crc32_eq_bitwise, fun _ _ => crc32_ne, fun before m after body pos hbefore hm h => ?_⟩
  refine replayed_encodeAll (fun r hr => ?_) (readRecord_altered hm.fits h _) pos
  obtain ⟨m', hm', rfl⟩ := List.mem_map.mp hr
  exact (hbefore m' hm').fits

/-- One byte of the second of three records. -/
theorem corruption_caught_one_byte : WriteAheadLog.replayed
    ⟨altered [.put [1] [2]] (.put [3] [4]) [.delete [5]] [3, 6], 0⟩ = [⟨kPut, [1], [2]⟩] :=
  corruption_caught.2.2 [.put [1] [2]] (.put [3] [4]) [.delete [5]] [3, 6] 0
    (fun m hm => by rw [List.mem_singleton.mp hm]; exact ⟨by decide, by decide⟩)
    ⟨by decide, by decide⟩ ⟨by decide, rfl, 1, fun j hj => by
      rcases j with _ | _ | j
      · exact absurd rfl hj
      · omega
      · exact absurd rfl hj⟩

lemma readRecord_value {s rest : Bytes} {r : Record} (h : readRecord s = some (r, rest)) :
    r.value.length < 2 ^ 32 := by
  unfold readRecord at h
  dsimp only at h
  split_ifs at h with h₁ h₂ hput h₃ h₄
  · cases h
    rw [not_and, not_not] at h₃
    rw [h₃ hput]
    exact (val_lt _).trans_le (Nat.pow_le_pow_right (by decide) (List.length_take_le _ _))
  · cases h
    exact Nat.two_pow_pos 32

lemma mem_replayLoop {n : ℕ} {s : Bytes} {r : Record} (h : r ∈ replayLoop n s) :
    ∃ s' rest, readRecord s' = some (r, rest) := by
  induction n generalizing s with
  | zero => cases h
  | succ n ih =>
    rw [replayLoop] at h
    rcases hread : readRecord s with _ | ⟨r', s'⟩
    · rw [hread] at h
      cases h
    · rw [hread] at h
      rcases List.mem_cons.mp h with rfl | h
      · exact ⟨s, s', hread⟩
      · exact ih h

/-- **A value of `2 ^ 32` bytes** is not delivered, whatever is altered behind it. -/
theorem long_value_ends_replay : ¬ ∀ before m after body pos,
    DifferWithin 4 (payload m.record) body →
      WriteAheadLog.replayed ⟨altered before m after body, pos⟩ =
        before.map Mutation.record := by
  intro h
  obtain ⟨v, hv⟩ : ∃ v : Bytes, v.length = 2 ^ 32 :=
    ⟨List.replicate (2 ^ 32) 0, List.length_replicate⟩
  have hone : DifferWithin 4 (payload (Mutation.delete [0]).record) [1] :=
    ⟨by decide, rfl, 0, fun j hj => by
      cases j with
      | zero => omega
      | succ j => exact absurd rfl hj⟩
  have hreplay := h [.put [] v] (.delete [0]) [] [1] 0 hone
  have hmem : (⟨kPut, [], v⟩ : Record) ∈
      WriteAheadLog.replayed ⟨altered [.put [] v] (.delete [0]) [] [1], 0⟩ := by
    rw [hreplay]
    exact List.mem_cons_self
  obtain ⟨s, rest, hread⟩ := mem_replayLoop hmem
  exact absurd (readRecord_value hread) (by rw [hv]; exact lt_irrefl _)

end DistDB.WalCorruption
