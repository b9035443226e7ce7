import SxtEnterprise.Column
import SxtEnterprise.Prove

/-!
# The HTTP API

`api/`.  Every handler does what it can before it takes the database's lock and after it has given it
back; what it does in between is a program of its own (`createLocked`, `insertLocked`, ...), so that what
several handlers at once can do to each other is what these programs can.
-/

namespace SxtEnterprise

open NumberedNames FaultyRun

/-- One queried table's commitment, as included in a query response. -/
structure QueriedTable where
  commitment : Name
  numRows : ℕ
  deriving DecidableEq

/-- The body of a successful `POST /query` response. -/
structure QueryResult (ω : Type) where
  rows : List ω
  proof : Name
  tables : IndexMap Name QueriedTable

deriving instance DecidableEq for QueryResult

/-- How batches, proofs and responses are written down; `ω` are JSON objects. -/
structure Codecs (ρ ω : Type) where
  /-- An `ArrayWriter` given one batch and finished. -/
  writeJson : RecordBatch ρ → Option Bytes
  /-- `serde_json::from_slice` of an array of objects. -/
  parseRows : Bytes → Option (List ω)
  /-- A decoder built for a schema, given JSON rows and flushed: the batch, if there were any rows. -/
  decodeRows : Schema → List ω → Option (Option (RecordBatch ρ))
  base64Encode : Bytes → Name
  base64Decode : Name → Option Bytes
  /-- The response body. -/
  writeResponse : QueryResult ω → Bytes
  parseResponse : Bytes → Option (QueryResult ω)
  /-- `pretty_format_batches` of one batch. -/
  prettyFormat : RecordBatch ρ → Option Name
  /-- The SQL parser's `parse_data_type`. -/
  parseDataType : Name → Option Column.SqlType

/-- What the service relies on. -/
structure Codecs.Lawful {ρ κ σ ω : Type} (K : Codecs ρ ω) (P : ProofSystem ρ κ σ) : Prop where
  base64 : ∀ bytes, K.base64Decode (K.base64Encode bytes) = some bytes
  /-- A response read back has the same proof and the same tables, in whatever order. -/
  response : ∀ r, ∃ r', K.parseResponse (K.writeResponse r) = some r' ∧ r'.proof = r.proof ∧
    r'.tables.entries.Perm r.tables.entries
  /-- What came out of the proof system can be displayed. -/
  display : ∀ t b, P.recordBatch t = .ok b → ∃ text, K.prettyFormat b = some text

namespace Api

/-- Failure to prove a query over the HTTP API. -/
inductive QueryError where
  | prove (error : ProveError)
  | arrow
  | db (error : DbError)
  deriving DecidableEq

def QueryError.status : QueryError → ℕ
  | .prove .parse | .prove (.statementCount _) => 400
  | .prove (.snapshot (.notFound _)) => 404
  | _ => 500

/-- Failure to insert rows over the HTTP API. -/
inductive RowsError where
  | tableName
  | decode
  | db (error : DbError)
  deriving DecidableEq

def RowsError.status : RowsError → ℕ
  | .db (.notFound _) => 404
  | .tableName | .decode | .db .schemaMismatch => 400
  | .db _ => 500

/-- Failure to create or look up a table over the HTTP API. -/
inductive TableError where
  | tableName
  | column (error : UnsupportedType)
  | db (error : DbError)
  deriving DecidableEq

def TableError.status : TableError → ℕ
  | .tableName | .column _ => 400
  | .db (.alreadyExists _) => 409
  | .db (.notFound _) => 404
  | .db _ => 500

/-- A single column's name and SQL type name. -/
structure ColumnJson where
  name : Name
  dataType : Name
  deriving DecidableEq

/-- The body of `GET /tables/{table}`. -/
structure TableDescription where
  columns : List ColumnJson
  numRows : ℕ
  commitment : Name
  deriving DecidableEq

variable {ρ κ σ ω : Type} (L : Libs ρ κ σ) (P : ProofSystem ρ κ σ) (K : Codecs ρ ω) (db : Db) (setup : σ)

/-! ### `POST /tables` -/

/-- What `create` does before it takes the lock: the reference and the schema it will create. -/
def createBefore (table : Name) (columns : List ColumnJson) : Outcome TableError (TableRef × Schema) := do
  let tableRef ← .ofOption .tableName (TableRef.fromStr table)
  let fields := columns.mapM fun column => do
    let dataType ← Column.parseColumnType K.parseDataType column.dataType
    pure (⟨column.name, dataType, false⟩ : Field)
  match fields with
  | .ok schema => pure (tableRef, schema)
  | .error e => .err (.column e)

/-- What `create` does under the lock. -/
def createLocked (tableRef : TableRef) (schema : Schema) : Io TableError Unit :=
  Prog.mapErr .db (db.createTable L tableRef schema setup)

/-- `POST /tables`: creates a new, empty table. -/
def create (table : Name) (columns : List ColumnJson) : Io TableError ℕ := do
  let (tableRef, schema) ← Prog.ofOutcome (createBefore K table columns)
  createLocked L db setup tableRef schema
  pure 201

/-! ### `POST /tables/{table}/rows` -/

/-- What `insert` does before it takes the lock. -/
def insertBefore (table : Name) : Outcome RowsError TableRef := .ofOption .tableName (TableRef.fromStr table)

/-- The batch `rows` are under `schema`. -/
def decodeBatch (schema : Schema) (rows : List ω) : Outcome RowsError (RecordBatch ρ) := do
  let batch ← .ofOption .decode (K.decodeRows schema rows)
  pure (batch.getD (RecordBatch.newEmpty schema))

/-- What `insert` does under the lock: the rows are read against the table's schema, and inserted. -/
def insertLocked (tableRef : TableRef) (rows : List ω) : Io RowsError Unit := do
  let schema ← Prog.mapErr .db (db.schema L tableRef)
  let batch ← Prog.ofOutcome (decodeBatch K schema rows)
  Prog.mapErr .db (db.insert L tableRef batch setup)

/-- `POST /tables/{table}/rows`: appends `rows` to `table`. -/
def insert (table : Name) (rows : List ω) : Io RowsError ℕ := do
  let tableRef ← Prog.ofOutcome (insertBefore table)
  insertLocked L K db setup tableRef rows
  pure 201

/-! ### `GET /tables` and `GET /tables/{table}` -/

/-- What `list` does under the lock. -/
def listLocked : Io TableError (List TableRef) := Prog.mapErr .db db.tables

/-- `GET /tables`: lists every table this database holds. -/
def list : Io TableError (List Name) := do
  let tables ← listLocked db
  pure (sorted (tables.map TableRef.toString))

/-- Base64-encodes a commitment in the standard binary format. -/
def encodeCommitment (commitment : κ) : Outcome DbError Name := do
  let bytes ← .ofOption .encode (L.serialize commitment)
  pure (K.base64Encode bytes)

/-- What `show` does under the lock. -/
def showLocked (tableRef : TableRef) : Io TableError (IndexMap TableRef κ) :=
  Prog.mapErr .db (db.commitments L [tableRef])

/-- What `show` does after it has given the lock back. -/
def showAfter (tableRef : TableRef) (commitments : IndexMap TableRef κ) : Outcome TableError TableDescription :=
  match commitments.lookup tableRef with
  | none => .panic
  | some commitment => do
    let columns := (P.columnMetadata commitment).entries.mapM fun (name, columnType) => do
      let dataType ← Column.columnTypeName (P.dataType columnType)
      pure (⟨name, dataType⟩ : ColumnJson)
    match columns with
    | .error e => .err (.column e)
    | .ok columns => do
      let encoded ← (encodeCommitment L K commitment).mapErr .db
      pure ⟨columns, L.numRows commitment, encoded⟩

/-- `GET /tables/{table}`: describes one table's schema, row count, and commitment. -/
def «show» (table : Name) : Io TableError TableDescription := do
  let tableRef ← Prog.ofOption .tableName (TableRef.fromStr table)
  let commitments ← showLocked L db tableRef
  Prog.ofOutcome (showAfter L P K tableRef commitments)

/-! ### `POST /query` -/

/-- What `query` takes away from the lock. -/
structure Proved (L : Libs ρ κ σ) (P : ProofSystem ρ κ σ) where
  result : P.Proof
  fields : List ColumnField
  commitments : IndexMap TableRef κ

/-- What `query` does before it takes the lock. -/
def queryBefore (sql : Name) : Outcome QueryError (List TableRef) := (Prove.tableRefs P sql).mapErr .prove

/-- What `query` does under the lock: the proof, and the commitments of the tables it is about. -/
def queryLocked (sql : Name) (tableRefs : List TableRef) : Io QueryError (Proved L P) := do
  let (result, fields) ← Prog.mapErr .prove (Prove.prove L P db sql setup)
  let commitments ← Prog.mapErr .db (db.commitments L tableRefs)
  pure ⟨result, fields, commitments⟩

/-- The rows of a batch, as JSON objects. -/
def jsonRows (batch : RecordBatch ρ) : Outcome QueryError (List ω) := do
  let bytes ← .ofOption .arrow (K.writeJson batch)
  match K.parseRows bytes with
  | some rows => pure rows
  | none => .panic

/-- What a response says of a table: its commitment and how many rows that covers. -/
def queriedTable (commitment : κ) : Outcome DbError QueriedTable := do
  let encoded ← encodeCommitment L K commitment
  pure ⟨encoded, L.numRows commitment⟩

/-- What `query` does after it has given the lock back. -/
def queryAfter (proved : Proved L P) : Outcome QueryError (QueryResult ω) := do
  let coerced ← (Prove.coerceScalars P (P.result proved.result) proved.fields).mapErr .prove
  let batch ← match P.recordBatch coerced with
    | .ok batch => pure batch
    | .error .error => .err .arrow
    | .error .panic => .panic
  let rows ← jsonRows K batch
  let proofBytes ← .ofOption (.db .encode) (P.serializeProof proved.result)
  let tables ← Outcome.mapErr .db (proved.commitments.entries.mapM fun e => do
    let table ← queriedTable L K e.2
    pure (e.1.toString, table))
  pure ⟨rows, K.base64Encode proofBytes, IndexMap.collect tables⟩

/-- `POST /query`: proves `sql` against the current database. -/
def query (sql : Name) : Io QueryError (QueryResult ω) := do
  let tableRefs ← Prog.ofOutcome (queryBefore P sql)
  let proved ← queryLocked L P db setup sql tableRefs
  Prog.ofOutcome (queryAfter L P K proved)

end Api

end SxtEnterprise
