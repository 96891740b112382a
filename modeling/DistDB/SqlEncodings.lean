import DistDB.SqlSchemas
import DistDB.Streaming

/-!
Rows and schemas as they are stored: what is written is read back, and a part of it is not taken
for the whole, wherever it is cut.
-/

namespace DistDB.SqlEncodings

open SqlParser SqlExecutor SqlTexts SqlStore SqlSchemas Codec Checks

/-- A row whose lengths fit their fields of 32 bits. -/
structure SmallRow (values : Row) : Prop where
  count : values.length < 2 ^ 32
  cell : ∀ v ∈ values, v.length < 2 ^ 32

/-- A schema with columns, whose lengths fit their fields of 32 bits. -/
structure SmallSchema (schema : TableSchema) : Prop where
  ne_nil : schema.columns ≠ []
  count : schema.columns.length < 2 ^ 32
  column : ∀ c ∈ schema.columns, SmallColumn c

lemma streams_row : Streams corruptRow (vec corruptRow (str corruptRow)) := streams_vec streams_str

lemma decodeRow_cut {values : Row} {p : Bytes} (h : SmallRow values) (hp : p <+: encodeRow values)
    (hne : p ≠ encodeRow values) : decodeRow p = .error corruptRow := by
  have hwhole : ReadsBack (vec corruptRow (str corruptRow)) (encodeRow values) values :=
    readsBack_vec (fun v hv => readsBack_str (h.cell v hv)) h.count
  rw [decodeRow, Codec.run, streams_row.truncated hwhole hp hne]
  rfl

lemma streams_readColumn : Streams TableSchema.corrupt TableSchema.readColumn := by
  refine streams_str.bind fun name => (streams_num 1).bind fun type =>
    (streams_num 1).bind fun key =>
    (streams_num 1).bind fun has => ?_
  dsimp only
  split
  · rw [← bind_pure_comp]
    exact (streams_str.bind fun _ => streams_pure _).bind fun _ => streams_pure _
  · exact (streams_pure none).bind fun _ => streams_pure _

lemma deserialize_cut {schema : TableSchema} {p : Bytes} (h : SmallSchema schema)
    (hp : p <+: schema.serialize) (hne : p ≠ schema.serialize) :
    TableSchema.deserialize p = .error TableSchema.corrupt := by
  have hwhole : ReadsBack (vec TableSchema.corrupt TableSchema.readColumn) schema.serialize
      schema.columns :=
    readsBack_vec (fun c hc t => readColumn_encodeColumn (h.column c hc) t) h.count
  rw [TableSchema.deserialize, Codec.run, (streams_vec streams_readColumn).truncated hwhole hp hne]
  rfl

/-- **Rows and schemas are read back, and no part of one is read**: a cut at any place throws. -/
theorem encodings_lossless :
    (∀ values, SmallRow values → decodeRow (encodeRow values) = .ok values ∧
      ∀ p, p <+: encodeRow values → p ≠ encodeRow values →
        decodeRow p = .error corruptRow) ∧
    ∀ schema, SmallSchema schema → TableSchema.deserialize schema.serialize = .ok schema ∧
      ∀ p, p <+: schema.serialize → p ≠ schema.serialize →
        TableSchema.deserialize p = .error TableSchema.corrupt :=
  ⟨fun _ h => ⟨decodeRow_encodeRow h.count h.cell, fun _ => decodeRow_cut h⟩,
    fun _ h => ⟨deserialize_serialize_eq h.ne_nil h.count h.column, fun _ =>
      deserialize_cut h⟩⟩

/-- A row of an empty value and a schema with a default. -/
theorem encodings_lossless_small : decodeRow (encodeRow [[], [7]]) = .ok [[], [7]] ∧
    TableSchema.deserialize (TableSchema.serialize ⟨[⟨[], .kInt, true, some []⟩]⟩) =
      .ok ⟨[⟨[], .kInt, true, some []⟩]⟩ := by
  refine ⟨(encodings_lossless.1 _ ⟨by decide, by decide⟩).1,
    (encodings_lossless.2 _ ⟨by decide, by decide, fun c hc => ?_⟩).1⟩
  rw [List.mem_singleton.mp hc]
  exact ⟨by decide, by rintro v ⟨⟩; decide⟩

end DistDB.SqlEncodings
