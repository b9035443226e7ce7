import SxtEnterprise.Libraries
import SxtEnterprise.Traverse

/-!
# Libraries that keep every law

`Libs.Lawful` asks for many things at once; this file shows that they can be had together.  A row is a
byte, files and commitments are a tag for the schema and the rows framed one by one up to an end mark,
a reader hands out one record batch for each row, and the commitment of a batch is the batch.  What the
real libraries refuse is refused here too: one schema, with a column of a type that cannot be committed
to, can be written to parquet but not committed to; a batch without columns can be written and committed
to, but not read; and a batch that runs past the setup is a panic.
-/

namespace SxtEnterprise.SampleLibs

open NumberedNames

/-! ### Framing -/

/-- Each row behind a mark, and an end mark. -/
def frame : List UInt8 → Bytes
  | [] => [0]
  | r :: rows => 1 :: r :: frame rows

/-- The rows up to the end mark, and how many bytes that took. -/
def unframe : Bytes → Option (List UInt8 × ℕ)
  | [] => none
  | [b] => if b = 0 then some ([], 1) else none
  | b :: r :: rest => if b = 0 then some ([], 1) else (unframe rest).map fun x => (r :: x.1, x.2 + 2)

theorem unframe_frame (rows : List UInt8) : unframe (frame rows) = some (rows, (frame rows).length) := by
  induction rows with
  | nil => rfl
  | cons r rows ih => simp [frame, unframe, ih]

/-- What is cut off before the end mark is not read at all. -/
theorem unframe_take (rows : List UInt8) {k : ℕ} (hk : k < (frame rows).length) :
    unframe ((frame rows).take k) = none := by
  induction rows generalizing k with
  | nil =>
    have : k = 0 := by simpa [frame] using hk
    subst this
    rfl
  | cons r rows ih =>
    rcases k with _ | _ | k
    · rfl
    · rfl
    · have hk' : k < (frame rows).length := by simpa [frame] using hk
      simp [frame, unframe, ih hk']

/-! ### Schemas -/

/-- One column of integers. -/
def ids : Schema := [⟨"id".toList, .int64, false⟩]

/-- One column of a type no commitment supports. -/
def floats : Schema := [⟨"id".toList, .other "Float64".toList, false⟩]

def tagOf (s : Schema) : Option UInt8 :=
  if s = ids then some 0 else if s = floats then some 1 else if s = [] then some 2 else none

def schemaOf (t : UInt8) : Option Schema :=
  if t = 0 then some ids else if t = 1 then some floats else if t = 2 then some [] else none

theorem schemaOf_tagOf {s : Schema} {t : UInt8} (h : tagOf s = some t) : schemaOf t = some s := by
  rw [tagOf] at h
  split at h
  · rename_i hs
    obtain rfl := Option.some.inj h
    rw [hs]; rfl
  · split at h
    · rename_i hs
      obtain rfl := Option.some.inj h
      rw [hs]; rfl
    · split at h
      · rename_i hs
        obtain rfl := Option.some.inj h
        rw [hs]; rfl
      · simp at h

/-- A batch behind the tag of its schema. -/
def encode (b : RecordBatch UInt8) : Option Bytes := (tagOf b.schema).map fun t => t :: frame b.rows

/-- The batch at the start of some bytes, and how many of them it took. -/
def decode : Bytes → Option (RecordBatch UInt8 × ℕ)
  | [] => none
  | t :: rest =>
    match schemaOf t, unframe rest with
    | some s, some (rows, n) => some (⟨s, rows⟩, n + 1)
    | _, _ => none

theorem decode_encode {b : RecordBatch UInt8} {bytes : Bytes} (h : encode b = some bytes) :
    decode bytes = some (b, bytes.length) := by
  rw [encode, Option.map_eq_some_iff] at h
  obtain ⟨t, ht, rfl⟩ := h
  rw [decode, schemaOf_tagOf ht, unframe_frame]
  rfl

theorem decode_take {b : RecordBatch UInt8} {bytes : Bytes} {k : ℕ} (h : encode b = some bytes)
    (hk : k < bytes.length) : decode (bytes.take k) = none := by
  rw [encode, Option.map_eq_some_iff] at h
  obtain ⟨t, ht, rfl⟩ := h
  rcases k with _ | k
  · rfl
  · rw [List.take_succ_cons, decode, schemaOf_tagOf ht, unframe_take _ (by simpa using hk)]

/-! ### The libraries -/

/-- The setup is how many rows it can commit to. -/
def libs : Libs UInt8 (RecordBatch UInt8) ℕ where
  writeParquet := encode
  parquetSchema bytes := ((decode bytes).map fun x => x.1.schema).filter (· ≠ [])
  parquetBatches bytes := (decode bytes).map fun x => x.1.rows.map fun r => ⟨x.1.schema, [r]⟩
  concatBatches schema bs :=
    if ∀ b ∈ bs, b.schema = schema then some (RecordBatch.concat schema bs) else none
  commitBatch b _ setup :=
    if b.schema = floats then .error .error
    else if b.numRows ≤ setup then .ok b else .error .panic
  appendBatch c b setup :=
    if c.schema ≠ b.schema then .error .error
    else if c.numRows + b.numRows ≤ setup then .ok (RecordBatch.concat c.schema [c, b])
    else .error .panic
  numRows := RecordBatch.numRows
  serialize := encode
  deserialize := decode

theorem commitBatch_eq_ok {b c : RecordBatch UInt8} {offset setup : ℕ} :
    libs.commitBatch b offset setup = .ok c ↔ b.schema ≠ floats ∧ b.numRows ≤ setup ∧ c = b := by
  simp only [libs]
  split
  · rename_i h; simp [h]
  · rename_i h
    split
    · rename_i h'; simp [h, h', eq_comm]
    · rename_i h'; simp [h, h']

theorem encode_ids {b : RecordBatch UInt8} (h : b.schema = ids) : encode b = some (0 :: frame b.rows) := by
  rw [encode, tagOf, if_pos h]
  rfl

/-- Batches of one schema are appended as long as there is room. -/
theorem appendBatch_run {c b : RecordBatch UInt8} {setup : ℕ} (hs : c.schema = b.schema)
    (hle : c.numRows + b.numRows ≤ setup) :
    libs.appendBatch c b setup = .ok (RecordBatch.concat c.schema [c, b]) :=
  (if_neg (not_not_intro hs)).trans (if_pos hle)

theorem libs_lawful : libs.Lawful where
  parquetSchema_write b bytes h hcol := by
    show ((decode bytes).map _).filter _ = _
    rw [decode_encode h]
    simp [hcol]
  parquetSchema_bare b bytes h hbare := by
    show ((decode bytes).map _).filter _ = _
    rw [decode_encode h]
    simp [hbare]
  parquetSchema_take b bytes k h hk := by
    show ((decode (bytes.take k)).map _).filter _ = _
    rw [decode_take h hk]
    rfl
  parquetSchema_nil := rfl
  parquetBatches_write b bytes h _ := by
    refine ⟨b.rows.map fun r => ⟨b.schema, [r]⟩, ?_, ?_, ?_⟩
    · show (decode bytes).map _ = _
      rw [decode_encode h]
      rfl
    · intro p hp
      obtain ⟨r, -, rfl⟩ := List.mem_map.mp hp
      rfl
    · simp [RecordBatch.concat, List.flatMap_map]
  concatBatches_eq schema bs h := if_pos h
  append_commits a b c c' setup setup' hc ha hs := by
    obtain ⟨hf, -, rfl⟩ := commitBatch_eq_ok.mp hc
    simp only [libs] at ha
    split at ha
    · simp at ha
    split at ha
    · rename_i hle
      obtain rfl := Except.ok.inj ha
      refine commitBatch_eq_ok.mpr ⟨hf, ?_, rfl⟩
      have : (RecordBatch.concat c.schema [c, b]).numRows = c.numRows + b.numRows := by
        simp [RecordBatch.concat, RecordBatch.numRows]
      omega
    · simp at ha
  commits_agree a c c' setup setup' h h' := by
    rw [(commitBatch_eq_ok.mp h).2.2, (commitBatch_eq_ok.mp h').2.2]
  numRows_commits a c setup h _ := by rw [(commitBatch_eq_ok.mp h).2.2]; rfl
  deserialize_serialize c bytes h := decode_encode h
  deserialize_take c bytes k h hk := decode_take h hk

/-! ### Other rows -/

section Via

variable {ρ ρ' κ σ : Type}

/-- Libraries for rows that stand for other rows, as far as they do. -/
def via (L : Libs ρ κ σ) (f : ρ' → Option ρ) (g : ρ → ρ') : Libs ρ' κ σ where
  writeParquet b := (b.rows.mapM f).bind fun rows => L.writeParquet ⟨b.schema, rows⟩
  parquetSchema := L.parquetSchema
  parquetBatches bytes := (L.parquetBatches bytes).map (List.map fun b => ⟨b.schema, b.rows.map g⟩)
  concatBatches schema bs :=
    if ∀ b ∈ bs, b.schema = schema then some (RecordBatch.concat schema bs) else none
  commitBatch b offset setup :=
    match b.rows.mapM f with
    | some rows => L.commitBatch ⟨b.schema, rows⟩ offset setup
    | none => .error .error
  appendBatch c b setup :=
    match b.rows.mapM f with
    | some rows => L.appendBatch c ⟨b.schema, rows⟩ setup
    | none => .error .error
  numRows := L.numRows
  serialize := L.serialize
  deserialize := L.deserialize

variable {L : Libs ρ κ σ} {f : ρ' → Option ρ} {g : ρ → ρ'}

theorem via_write {b : RecordBatch ρ'} {bytes : Bytes} : (via L f g).writeParquet b = some bytes ↔
    ∃ rows, b.rows.mapM f = some rows ∧ L.writeParquet ⟨b.schema, rows⟩ = some bytes := Option.bind_eq_some_iff

theorem via_commit {b : RecordBatch ρ'} {offset : ℕ} {setup : σ} {c : κ} :
    (via L f g).commitBatch b offset setup = .ok c ↔
      ∃ rows, b.rows.mapM f = some rows ∧ L.commitBatch ⟨b.schema, rows⟩ offset setup = .ok c := by
  rcases h : b.rows.mapM f with _ | rows <;> simp [via, h]

theorem via_append {c c' : κ} {b : RecordBatch ρ'} {setup : σ} : (via L f g).appendBatch c b setup = .ok c' ↔
    ∃ rows, b.rows.mapM f = some rows ∧ L.appendBatch c ⟨b.schema, rows⟩ setup = .ok c' := by
  rcases h : b.rows.mapM f with _ | rows <;> simp [via, h]

/-- **They keep the laws** if no two rows stand for one. -/
theorem via_lawful (hL : L.Lawful) (hfg : ∀ x y, f x = some y → x = g y) : (via L f g).Lawful := by
  have hmap : ∀ (xs : List ρ') (ys : List ρ), xs.mapM f = some ys → xs = ys.map g := by
    intro xs ys h
    rw [mapM_eq_some_iff] at h
    induction h with
    | nil => rfl
    | cons hxy _ ih => rw [List.map_cons, ← hfg _ _ hxy, ← ih]
  have hlen : ∀ (xs : List ρ') (ys : List ρ), xs.mapM f = some ys → xs.length = ys.length := fun xs ys h =>
    (mapM_eq_some_iff.mp h).length_eq
  refine ⟨?_, ?_, ?_, hL.parquetSchema_nil, ?_, fun schema bs h => if_pos h, ?_, ?_, ?_, hL.deserialize_serialize,
    hL.deserialize_take⟩
  · intro b bytes h hcol
    obtain ⟨rows, -, hw⟩ := via_write.mp h
    exact hL.parquetSchema_write _ _ hw hcol
  · intro b bytes h hbare
    obtain ⟨rows, -, hw⟩ := via_write.mp h
    exact hL.parquetSchema_bare _ _ hw hbare
  · intro b bytes k h hk
    obtain ⟨rows, -, hw⟩ := via_write.mp h
    exact hL.parquetSchema_take _ _ k hw hk
  · intro b bytes h hcol
    obtain ⟨rows, hrows, hw⟩ := via_write.mp h
    obtain ⟨parts, hparts, hschema, hconcat⟩ := hL.parquetBatches_write _ _ hw hcol
    refine ⟨parts.map fun b => ⟨b.schema, b.rows.map g⟩, ?_, ?_, ?_⟩
    · show (L.parquetBatches bytes).map _ = _
      rw [hparts]
      rfl
    · intro part hpart
      obtain ⟨p, hp, rfl⟩ := List.mem_map.mp hpart
      exact hschema p hp
    · have hall : parts.flatMap RecordBatch.rows = rows := congrArg RecordBatch.rows hconcat
      rw [RecordBatch.concat, List.flatMap_map, ← List.map_flatMap, hall, ← hmap _ _ hrows]
  · intro a b c c' setup setup' hc ha hs
    obtain ⟨rows, hrows, hc⟩ := via_commit.mp hc
    obtain ⟨rows', hrows', ha⟩ := via_append.mp ha
    refine via_commit.mpr ⟨rows ++ rows', ?_, ?_⟩
    · simp only [RecordBatch.concat, List.flatMap_cons, List.flatMap_nil, List.append_nil]
      rw [mapM_eq_some_iff] at hrows hrows' ⊢
      exact List.rel_append hrows hrows'
    · have := hL.append_commits _ _ _ _ _ _ hc ha hs
      simpa [RecordBatch.concat] using this
  · intro a c c' setup setup' h h'
    obtain ⟨rows, hrows, hc⟩ := via_commit.mp h
    obtain ⟨rows', hrows', hc'⟩ := via_commit.mp h'
    obtain rfl := Option.some.inj (hrows.symm.trans hrows')
    exact hL.commits_agree _ _ _ _ _ hc hc'
  · intro a c setup h hbare
    obtain ⟨rows, hrows, hc⟩ := via_commit.mp h
    refine (hL.numRows_commits _ _ _ hc fun hs => ?_).trans (hlen _ _ hrows).symm
    exact List.eq_nil_of_length_eq_zero (by rw [← hlen _ _ hrows, hbare hs, List.length_nil])

end Via

/-! ### A place to run them -/

/-- Where a sample database lives. -/
def home : Loc Name := ["db".toList]

/-- Two tables of it. -/
def people : TableRef := ⟨some "sxt".toList, "people".toList⟩

def places : TableRef := ⟨some "sxt".toList, "places".toList⟩

end SxtEnterprise.SampleLibs
