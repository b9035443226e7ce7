import SxtEnterprise.ProofSystem

/-!
# Proving a query

`prove.rs`.  The tables a statement references are read from the database, the statement is planned over
their schemas, and the plan is proved over their rows.  Aggregates come back as raw field elements, which
`coerceScalars` converts to the types the plan declares.
-/

namespace SxtEnterprise

open NumberedNames FaultyRun

/-- Failure to prove a query. -/
inductive ProveError where
  | parse
  | statementCount (count : ℕ)
  | tableName
  | snapshot (error : DbError)
  | plan
  | column
  | prove
  | scalarOverflow
  deriving DecidableEq

namespace Prove

variable {ρ κ σ : Type} (L : Libs ρ κ σ) (P : ProofSystem ρ κ σ)

/-- The tables `sql`'s single statement references. -/
def tableRefs (sql : Name) : Outcome ProveError (List TableRef) := do
  let statements ← .ofOption .parse (P.parseSql sql)
  match statements with
  | [statement] => .ofOption .tableName (P.tableRefs statement)
  | _ => .err (.statementCount statements.length)

/-- The schemas of the tables read, as the planner knows them; a column of an unsupported type panics. -/
def schemaAccessor (tables : IndexMap TableRef (RecordBatch ρ)) :
    Outcome ProveError (IndexMap TableRef (IndexMap Name ColumnType)) :=
  match tables.entries.mapM fun e => (P.columnsOf e.2.schema).map (e.1, ·) with
  | some schemas => .ok (IndexMap.collect schemas)
  | none => .panic

/-- Plans `statement` over `tables` and proves it: the proof, and the columns the plan declares. -/
def proveOver (statement : P.Statement) (tables : IndexMap TableRef (RecordBatch ρ)) (setup : σ) :
    Outcome ProveError (P.Proof × List ColumnField) := do
  let schemas ← schemaAccessor P tables
  let plans ← Failure.toOutcome .plan (P.plans [statement] schemas.lookup)
  match plans with
  | [] => .panic
  | plan :: _ =>
    let data ← .ofOption .column (tables.entries.mapM fun e => (P.tableData e.2 0).map (e.1, ·))
    let result ← Failure.toOutcome .prove (P.newProof plan (IndexMap.collect data) setup)
    pure (result, P.resultFields plan)

/-- Proves `sql` against `db`'s current data. -/
def prove (db : Db) (sql : Name) (setup : σ) : Io ProveError (P.Proof × List ColumnField) := do
  let statements ← Prog.ofOption .parse (P.parseSql sql)
  match statements with
  | [statement] =>
    let tableRefs ← Prog.ofOption .tableName (P.tableRefs statement)
    let tables ← Prog.mapErr .snapshot (db.data L tableRefs)
    Prog.ofOutcome (proveOver P statement tables setup)
  | _ => Prog.fail (.statementCount statements.length)

/-- The `convert` of `coerce_scalar_column`. -/
def convert (type : MachineInt) (values : List P.Scalar) : Except ProveError (List ℤ) :=
  match values.mapM (P.tryInto type) with
  | some ns => .ok ns
  | none => .error .scalarOverflow

/-- Coerces a single aggregate result column of raw scalars to `toType`. -/
def coerceScalarColumn (values : List P.Scalar) (toType : ColumnType) :
    Except ProveError (OwnedColumn P.Scalar P.Value) :=
  match toType with
  | .uint8 => .uint8 <$> convert P .u8 values
  | .tinyInt => .tinyInt <$> convert P .i8 values
  | .smallInt => .smallInt <$> convert P .i16 values
  | .int => .int <$> convert P .i32 values
  | .bigInt => .bigInt <$> convert P .i64 values
  | .int128 => .int128 <$> convert P .i128 values
  | .decimal75 precision scale => .ok (.decimal75 precision scale values)
  | _ => .ok (.scalar values)

/-- Coerces `table`'s aggregate result columns to `fields`' declared types. -/
def coerceScalars (table : OwnedTable P.Scalar P.Value) (fields : List ColumnField) :
    Outcome ProveError (OwnedTable P.Scalar P.Value) :=
  match (table.columns.entries.zip fields).mapM fun cf => do
      let column ← match cf.1.2 with
        | .scalar values => coerceScalarColumn P values cf.2.dataType
        | column => pure column
      pure (cf.1.1, column) with
  | .error e => .err e
  | .ok columns =>
    match OwnedTable.tryFromIter columns with
    | some table => .ok table
    | none => .panic

end Prove

end SxtEnterprise
