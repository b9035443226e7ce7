import SxtEnterprise.Disk
import SxtEnterprise.TableRef

/-!
# What the database calls: arrow, parquet, bincode and the commitment library

The database treats rows, commitments and setups as opaque, so they are type parameters: `ρ` for rows,
`κ` for table commitments, `σ` for setups, which all come from one ceremony.  `Libs` is what it calls,
and `Libs.Lawful` what it relies on:

* a parquet file with at least one column gives back the schema and the rows it was written with, in
  order, however many record batches the reader cuts them into; one without columns can be written, but
  not read; and neither can one that is empty or cut off before its end, where its footer is;
* batches of one schema concatenate to their rows, one after the other;
* a commitment extended by a batch is the commitment of the concatenation, and two setups of the
  ceremony that both commit to a batch commit to it with the same commitment;
* a serialized commitment is deserialized to itself, and what is cut off before its end is not
  deserialized at all.
-/

namespace SxtEnterprise

open NumberedNames FaultyRun

/-- The arrow types the service names, and every other by what it displays as. -/
inductive DataType where
  | boolean
  | int8
  | int16
  | int32
  | int64
  | utf8
  | other (display : Name)
  deriving DecidableEq

/-- A column of a schema. -/
structure Field where
  name : Name
  dataType : DataType
  nullable : Bool
  deriving DecidableEq

/-- The columns of a table, in order. -/
abbrev Schema := List Field

/-- Rows under a schema. -/
structure RecordBatch (ρ : Type) where
  schema : Schema
  rows : List ρ
  deriving DecidableEq

namespace RecordBatch

variable {ρ : Type}

/-- `RecordBatch::new_empty`. -/
def newEmpty (schema : Schema) : RecordBatch ρ := ⟨schema, []⟩

/-- `RecordBatch::num_rows`. -/
def numRows (b : RecordBatch ρ) : ℕ := b.rows.length

/-- The rows of all of `bs`, one after the other. -/
def concat (schema : Schema) (bs : List (RecordBatch ρ)) : RecordBatch ρ :=
  ⟨schema, bs.flatMap rows⟩

end RecordBatch

/-- How a library call fails. -/
inductive Failure where
  | error
  | panic
  deriving DecidableEq

/-- The `?` of a library call that may also panic, off the disk. -/
def Failure.toOutcome {ε α : Type} (e : ε) : Except Failure α → Outcome ε α
  | .ok a => .ok a
  | .error .error => .err e
  | .error .panic => .panic

theorem Failure.toOutcome_eq_ok {ε α : Type} {e : ε} {x : Except Failure α} {a : α} :
    toOutcome e x = .ok a ↔ x = .ok a := by
  rcases x with (_ | _) | _ <;> simp [toOutcome]

/-- The library calls of the database. -/
structure Libs (ρ κ σ : Type) where
  /-- The file an `ArrowWriter` makes of one batch and closes. -/
  writeParquet : RecordBatch ρ → Option Bytes
  /-- The schema a `ParquetRecordBatchReaderBuilder` finds in a file. -/
  parquetSchema : Bytes → Option Schema
  /-- The record batches its reader cuts the file's rows into. -/
  parquetBatches : Bytes → Option (List (RecordBatch ρ))
  /-- `arrow::compute::concat_batches`. -/
  concatBatches : Schema → List (RecordBatch ρ) → Option (RecordBatch ρ)
  /-- `TableCommitment::try_from_record_batch_with_offset`. -/
  commitBatch : RecordBatch ρ → ℕ → σ → Except Failure κ
  /-- `TableCommitment::try_append_record_batch`. -/
  appendBatch : κ → RecordBatch ρ → σ → Except Failure κ
  /-- `TableCommitment::num_rows`. -/
  numRows : κ → ℕ
  /-- `try_standard_binary_serialization` of a commitment. -/
  serialize : κ → Option Bytes
  /-- `try_standard_binary_deserialization` of a commitment: it and the bytes read. -/
  deserialize : Bytes → Option (κ × ℕ)

namespace Libs

variable {ρ κ σ : Type} (L : Libs ρ κ σ)

/-- `c` is the commitment of `b`. -/
def Commits (c : κ) (b : RecordBatch ρ) : Prop := ∃ setup, L.commitBatch b 0 setup = .ok c

/-- What the database relies on. -/
structure Lawful : Prop where
  parquetSchema_write : ∀ b bytes, L.writeParquet b = some bytes → b.schema ≠ [] →
    L.parquetSchema bytes = some b.schema
  parquetSchema_bare : ∀ b bytes, L.writeParquet b = some bytes → b.schema = [] → L.parquetSchema bytes = none
  parquetSchema_take : ∀ b bytes k, L.writeParquet b = some bytes → k < bytes.length →
    L.parquetSchema (bytes.take k) = none
  parquetSchema_nil : L.parquetSchema [] = none
  parquetBatches_write : ∀ b bytes, L.writeParquet b = some bytes → b.schema ≠ [] →
    ∃ parts, L.parquetBatches bytes = some parts ∧ (∀ p ∈ parts, p.schema = b.schema) ∧
      RecordBatch.concat b.schema parts = b
  concatBatches_eq : ∀ schema bs, (∀ b ∈ bs, b.schema = schema) →
    L.concatBatches schema bs = some (RecordBatch.concat schema bs)
  append_commits : ∀ a b c c' setup setup', L.commitBatch a 0 setup = .ok c →
    L.appendBatch c b setup' = .ok c' → b.schema = a.schema →
      L.commitBatch (RecordBatch.concat a.schema [a, b]) 0 setup' = .ok c'
  commits_agree : ∀ a c c' setup setup', L.commitBatch a 0 setup = .ok c →
    L.commitBatch a 0 setup' = .ok c' → c = c'
  numRows_commits : ∀ a c setup, L.commitBatch a 0 setup = .ok c → (a.schema = [] → a.rows = []) →
    L.numRows c = a.numRows
  deserialize_serialize : ∀ c bytes, L.serialize c = some bytes →
    L.deserialize bytes = some (c, bytes.length)
  deserialize_take : ∀ c bytes k, L.serialize c = some bytes → k < bytes.length →
    L.deserialize (bytes.take k) = none

/-- **What was written is read back, if it has a column.** -/
theorem Lawful.schema_of_write {L : Libs ρ κ σ} (hL : L.Lawful) {b : RecordBatch ρ} {bytes : Bytes}
    (h : L.writeParquet b = some bytes) {s : Schema} :
    L.parquetSchema bytes = some s ↔ b.schema ≠ [] ∧ s = b.schema := by
  by_cases hb : b.schema = []
  · simp [hL.parquetSchema_bare b bytes h hb, hb]
  · simp [hL.parquetSchema_write b bytes h hb, hb, eq_comm]

end Libs

end SxtEnterprise
