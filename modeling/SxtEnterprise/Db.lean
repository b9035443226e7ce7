import SxtEnterprise.IndexMap
import SxtEnterprise.Libraries

/-!
# The database: one directory per table

`db.rs`.  A table's directory holds its batches, numbered from `000000.parquet`, and the commitment of
all of them, `table.commit`.  Nothing is kept in memory: how many batches there are is how many parquet
files the directory lists, and the schema is that of whichever of them sorts first.
-/

namespace SxtEnterprise

open NumberedNames Paths FaultyRun

/-- Failure to create a table in, or insert into, a database. -/
inductive DbError where
  | io
  | parquet
  | arrow
  | encode
  | decode
  | commit
  | append
  | alreadyExists (tableRef : TableRef)
  | notFound (tableRef : TableRef)
  | empty
  | schemaMismatch
  deriving DecidableEq

instance : FromIo DbError := ⟨.io⟩

/-- A database: the directory each table's own directory lives under. -/
structure Db where
  dir : Loc Name
  deriving DecidableEq

namespace Db

/-- The `?` of a library call that may also panic. -/
def orPanic {ε α : Type} (e : ε) : Except Failure α → Io ε α
  | .ok a => Prog.done a
  | .error .error => Prog.fail e
  | .error .panic => Prog.ofOutcome .panic

/-- `000000.parquet`, `000001.parquet`, ... -/
def batchName (index : ℕ) : Name := numbered 6 ".parquet".toList index

def commitName : Name := "table.commit".toList

/-- The path a batch numbered `index` is stored at. -/
def batchPath (dir : Path) (index : ℕ) : Path := dir.join (batchName index)

/-- The path a table's commitment is stored at. -/
def commitPath (dir : Path) : Path := dir.join commitName

/-- A directory entry's own path. -/
def entryPath (dir : Path) (c : Name) : Path := ⟨dir.start, dir.comps ++ [c], .bare⟩

def isParquet (c : Name) : Bool := extension c = some "parquet".toList

/-- Every parquet file in a table's directory, in file order.  Entries that come back as errors are
dropped. -/
def parquetPaths (dir : Path) : Io DbError (List Path) := do
  let entries ← Disk.readDir dir
  pure ((sorted ((entries.filterMap id).filter isParquet)).map (entryPath dir))

section Files

variable {ρ κ σ : Type} (L : Libs ρ κ σ)

/-- Writes `batch` to `path` as a single parquet file.  The file is created before the writer is. -/
def writeBatch (path : Path) (batch : RecordBatch ρ) : Io DbError Unit := do
  Disk.create path
  let bytes ← Prog.ofOption .parquet (L.writeParquet batch)
  Disk.writeAll path bytes

/-- What a parquet reader can make of a file it has opened; nothing, of a directory. -/
def parquetBytes (n : Node Bytes) : Io DbError Bytes :=
  match n with
  | .dir => Prog.fail .parquet
  | .file bytes => pure bytes

/-- Reads the parquet file at `path` back into a single `RecordBatch`. -/
def readBatch (path : Path) : Io DbError (RecordBatch ρ) := do
  let file ← Disk.openFile path
  let bytes ← parquetBytes file
  let schema ← Prog.ofOption .parquet (L.parquetSchema bytes)
  let batches ← Prog.ofOption .arrow (L.parquetBatches bytes)
  Prog.ofOption .arrow (L.concatBatches schema batches)

/-- The arrow schema `path`'s parquet file was written with. -/
def readSchema (path : Path) : Io DbError Schema := do
  let file ← Disk.openFile path
  let bytes ← parquetBytes file
  Prog.ofOption .parquet (L.parquetSchema bytes)

/-- Writes `commitment` to `path` in the standard binary format. -/
def writeCommitment (path : Path) (commitment : κ) : Io DbError Unit := do
  let bytes ← Prog.ofOption .encode (L.serialize commitment)
  Disk.write path bytes

/-- Reads a commitment previously written by `writeCommitment`. -/
def readCommitment (path : Path) : Io DbError κ := do
  let bytes ← Disk.read path
  let read ← Prog.ofOption .decode (L.deserialize bytes)
  pure read.1

/-- Opens the database at `dir`, creating it if it does not exist. -/
def openAt (dir : Loc Name) : Io DbError Db := do
  Disk.createDirAll (Path.ofLoc dir)
  pure ⟨dir⟩

variable (db : Db)

/-- The directory `tableRef`'s files live in. -/
def tableDir (tableRef : TableRef) : Path := (Path.ofLoc db.dir).join tableRef.toString

/-- Creates a new, empty table under `tableRef`. -/
def createTable (tableRef : TableRef) (schema : Schema) (setup : σ) : Io DbError Unit := do
  let dir := db.tableDir tableRef
  let present ← Disk.pathExists dir
  if present then Prog.fail (.alreadyExists tableRef) else
  Disk.createDirAll dir
  let empty := RecordBatch.newEmpty schema
  writeBatch L (batchPath dir 0) empty
  let commitment ← orPanic .commit (L.commitBatch empty 0 setup)
  writeCommitment L (commitPath dir) commitment

/-- Appends `batch` to the table under `tableRef`. -/
def insert (tableRef : TableRef) (batch : RecordBatch ρ) (setup : σ) : Io DbError Unit := do
  let dir := db.tableDir tableRef
  let present ← Disk.pathExists dir
  if !present then Prog.fail (.notFound tableRef) else
  let paths ← parquetPaths dir
  let first ← Prog.ofOption .empty paths.head?
  let schema ← readSchema L first
  if batch.schema ≠ schema then Prog.fail .schemaMismatch else
  let commitment ← readCommitment L (commitPath dir)
  writeBatch L (batchPath dir paths.length) batch
  let commitment ← orPanic .append (L.appendBatch commitment batch setup)
  writeCommitment L (commitPath dir) commitment

/-- Reads `tableRef`'s data fresh from disk, without its commitment. -/
def tableData (tableRef : TableRef) : Io DbError (RecordBatch ρ) := do
  let dir := db.tableDir tableRef
  let present ← Disk.pathExists dir
  if !present then Prog.fail (.notFound tableRef) else
  let paths ← parquetPaths dir
  let first ← Prog.ofOption .empty paths.head?
  let schema ← readSchema L first
  let batches ← paths.mapM (readBatch L)
  Prog.ofOption .arrow (L.concatBatches schema batches)

/-- Reads each of `tableRefs`' data fresh from disk, without its commitment. -/
def data (tableRefs : List TableRef) : Io DbError (IndexMap TableRef (RecordBatch ρ)) := do
  let entries ← tableRefs.mapM fun tableRef => do
    let batch ← tableData L db tableRef
    pure (tableRef, batch)
  pure (IndexMap.collect entries)

/-- Reads `tableRef`'s schema, without its data or commitment. -/
def schema (tableRef : TableRef) : Io DbError Schema := do
  let dir := db.tableDir tableRef
  let present ← Disk.pathExists dir
  if !present then Prog.fail (.notFound tableRef) else
  let paths ← parquetPaths dir
  let first ← Prog.ofOption .empty paths.head?
  readSchema L first

/-- Reads `tableRef`'s commitment. -/
def tableCommitment (tableRef : TableRef) : Io DbError κ := do
  let dir := db.tableDir tableRef
  let present ← Disk.pathExists dir
  if !present then Prog.fail (.notFound tableRef) else
  readCommitment L (commitPath dir)

/-- Reads each of `tableRefs`' commitments fresh from disk, without their data. -/
def commitments (tableRefs : List TableRef) : Io DbError (IndexMap TableRef κ) := do
  let entries ← tableRefs.mapM fun tableRef => do
    let commitment ← tableCommitment L db tableRef
    pure (tableRef, commitment)
  pure (IndexMap.collect entries)

/-- Every table this database currently holds: the directories in its own whose names parse. -/
def tables : Io DbError (List TableRef) := do
  let entries ← Disk.readDir (Path.ofLoc db.dir)
  let kinds ← (entries.filterMap id).mapM fun c => do
    let dir ← Disk.isDir (entryPath (Path.ofLoc db.dir) c)
    pure (c, dir)
  pure ((kinds.filter Prod.snd).filterMap fun k => TableRef.fromStr k.1)

end Files

end Db

end SxtEnterprise
