import SxtEnterprise.Db

/-!
# What proving and verifying call: the SQL parser, the planner and the proof system

Statements, plans, proofs, field elements and the prover's columns are opaque.  `ProofSystem` is what the
service calls, and `ProofSystem.Lawful` what it relies on:

* the tables a statement references are parsed references, each once, and neither planning nor verifying
  looks at any other;
* a commitment knows the columns of the batch it commits to, in order;
* a proof made of the committed rows is accepted for the plan it was made for, and acceptance yields its
  result, the raw field elements of aggregates typed as the plan declares (`Typed`).
-/

namespace SxtEnterprise

open NumberedNames FaultyRun

/-- The column types the service names, and every other by what it is called. -/
inductive ColumnType where
  | uint8
  | tinyInt
  | smallInt
  | int
  | bigInt
  | int128
  | decimal75 (precision : ℕ) (scale : ℤ)
  | other (name : Name)
  deriving DecidableEq

/-- A declared result column. -/
structure ColumnField where
  name : Name
  dataType : ColumnType
  deriving DecidableEq

/-- A result column: integers, field elements, or values of some other type. -/
inductive OwnedColumn (ς ν : Type) where
  | uint8 (values : List ℤ)
  | tinyInt (values : List ℤ)
  | smallInt (values : List ℤ)
  | int (values : List ℤ)
  | bigInt (values : List ℤ)
  | int128 (values : List ℤ)
  | decimal75 (precision : ℕ) (scale : ℤ) (values : List ς)
  | scalar (values : List ς)
  | other (name : Name) (values : List ν)
  deriving DecidableEq

namespace OwnedColumn

variable {ς ν : Type}

def length : OwnedColumn ς ν → ℕ
  | uint8 vs | tinyInt vs | smallInt vs | int vs | bigInt vs | int128 vs => vs.length
  | decimal75 _ _ vs | scalar vs => vs.length
  | other _ vs => vs.length

/-- The column holds raw field elements. -/
def IsScalar : OwnedColumn ς ν → Prop
  | scalar _ => True
  | _ => False

end OwnedColumn

/-- Named columns of one length. -/
structure OwnedTable (ς ν : Type) where
  columns : IndexMap Name (OwnedColumn ς ν)
  sameLength : ∀ c ∈ columns.entries, ∀ d ∈ columns.entries, c.2.length = d.2.length

/-- `OwnedTable::try_from_iter`. -/
def OwnedTable.tryFromIter {ς ν : Type} (l : List (Name × OwnedColumn ς ν)) : Option (OwnedTable ς ν) :=
  if h : ∀ c ∈ (IndexMap.collect l).entries, ∀ d ∈ (IndexMap.collect l).entries, c.2.length = d.2.length then
    some ⟨IndexMap.collect l, h⟩
  else none

/-- The integers a field element is converted to. -/
inductive MachineInt where
  | u8
  | i8
  | i16
  | i32
  | i64
  | i128
  deriving DecidableEq

namespace MachineInt

/-- The integers a type holds. -/
def Holds : MachineInt → ℤ → Prop
  | u8, n => 0 ≤ n ∧ n < 2 ^ 8
  | i8, n => -2 ^ 7 ≤ n ∧ n < 2 ^ 7
  | i16, n => -2 ^ 15 ≤ n ∧ n < 2 ^ 15
  | i32, n => -2 ^ 31 ≤ n ∧ n < 2 ^ 31
  | i64, n => -2 ^ 63 ≤ n ∧ n < 2 ^ 63
  | i128, n => -2 ^ 127 ≤ n ∧ n < 2 ^ 127

instance (type : MachineInt) (n : ℤ) : Decidable (type.Holds n) := by
  cases type <;> exact inferInstanceAs (Decidable (_ ∧ _))

end MachineInt

/-- The library calls of proving and verifying. -/
structure ProofSystem (ρ κ σ : Type) where
  Statement : Type
  Plan : Type
  Scalar : Type
  Value : Type
  Data : Type
  Proof : Type
  /-- `Parser::parse_sql`, with the generic dialect. -/
  parseSql : Name → Option (List Statement)
  /-- `get_table_refs_from_statement`. -/
  tableRefs : Statement → Option (List TableRef)
  /-- `sql_to_proof_plans`, over the columns its accessor knows for each table; it can panic. -/
  plans : List Statement → (TableRef → Option (IndexMap Name ColumnType)) → Except Failure (List Plan)
  /-- `get_column_result_fields`. -/
  resultFields : Plan → List ColumnField
  /-- `ColumnType::try_from`. -/
  columnType : DataType → Option ColumnType
  /-- `DataType::from`. -/
  dataType : ColumnType → DataType
  /-- `TableDataAccessor::try_from_record_batch`. -/
  tableData : RecordBatch ρ → ℕ → Option Data
  /-- `VerifiableQueryResult::new`. -/
  newProof : Plan → IndexMap TableRef Data → σ → Except Failure Proof
  /-- The result a proof comes with. -/
  result : Proof → OwnedTable Scalar Value
  /-- `VerifiableQueryResult::verify`, under the verifier's own key. -/
  verifyProof : Proof → Plan → IndexMap TableRef κ → Option (OwnedTable Scalar Value)
  /-- The name and type of each column a commitment has, in order. -/
  columnMetadata : κ → IndexMap Name ColumnType
  /-- `TryInto` of a field element. -/
  tryInto : MachineInt → Scalar → Option ℤ
  /-- `RecordBatch::try_from`; of a raw field element it can only panic. -/
  recordBatch : OwnedTable Scalar Value → Except Failure (RecordBatch ρ)
  /-- `try_standard_binary_serialization` of a proof. -/
  serializeProof : Proof → Option Bytes
  /-- `try_standard_binary_deserialization` of a proof: it and the bytes read. -/
  deserializeProof : Bytes → Option (Proof × ℕ)

namespace ProofSystem

variable {ρ κ σ : Type} (P : ProofSystem ρ κ σ)

/-- The columns of a schema, as the planner knows them. -/
def columnsOf (schema : Schema) : Option (IndexMap Name ColumnType) :=
  (schema.mapM fun field => (P.columnType field.dataType).map (field.name, ·)).map IndexMap.collect

/-- A column after the verifier has typed it as declared: raw field elements become the numbers they stand
for, and every other column stays. -/
inductive Typed : ColumnType → OwnedColumn P.Scalar P.Value → OwnedColumn P.Scalar P.Value → Prop
  | kept {t : ColumnType} {c : OwnedColumn P.Scalar P.Value} : ¬ c.IsScalar → Typed t c c
  | uint8 {vs : List P.Scalar} {ns : List ℤ} : vs.mapM (P.tryInto .u8) = some ns →
      Typed .uint8 (.scalar vs) (.uint8 ns)
  | tinyInt {vs : List P.Scalar} {ns : List ℤ} : vs.mapM (P.tryInto .i8) = some ns →
      Typed .tinyInt (.scalar vs) (.tinyInt ns)
  | smallInt {vs : List P.Scalar} {ns : List ℤ} : vs.mapM (P.tryInto .i16) = some ns →
      Typed .smallInt (.scalar vs) (.smallInt ns)
  | int {vs : List P.Scalar} {ns : List ℤ} : vs.mapM (P.tryInto .i32) = some ns →
      Typed .int (.scalar vs) (.int ns)
  | bigInt {vs : List P.Scalar} {ns : List ℤ} : vs.mapM (P.tryInto .i64) = some ns →
      Typed .bigInt (.scalar vs) (.bigInt ns)
  | int128 {vs : List P.Scalar} {ns : List ℤ} : vs.mapM (P.tryInto .i128) = some ns →
      Typed .int128 (.scalar vs) (.int128 ns)
  | decimal75 {p : ℕ} {s : ℤ} {vs : List P.Scalar} :
      Typed (.decimal75 p s) (.scalar vs) (.decimal75 p s vs)

/-- A table after the verifier has typed its columns as declared. -/
structure TypedTable (fields : List ColumnField) (t t' : OwnedTable P.Scalar P.Value) : Prop where
  keys : t'.columns.keys = t.columns.keys
  typed : ∀ (i : ℕ) field c c', fields[i]? = some field → t.columns.entries[i]? = some c →
    t'.columns.entries[i]? = some c' → P.Typed field.dataType c.2 c'.2

/-- What the service relies on. -/
structure Lawful (L : Libs ρ κ σ) : Prop where
  tableRefs_parsed : ∀ st refs, P.tableRefs st = some refs → ∀ r ∈ refs, r.Parsed
  tableRefs_nodup : ∀ st refs, P.tableRefs st = some refs → refs.Nodup
  /-- Planning looks only at the tables the statement references. -/
  plans_congr : ∀ st refs acc acc', P.tableRefs st = some refs → (∀ r ∈ refs, acc r = acc' r) →
    P.plans [st] acc = P.plans [st] acc'
  /-- Verifying looks only at the commitments of these tables. -/
  verifyProof_congr : ∀ st refs acc plan rest m m' proof, P.tableRefs st = some refs →
    P.plans [st] acc = .ok (plan :: rest) → (∀ r ∈ refs, m.lookup r = m'.lookup r) →
      P.verifyProof proof plan m = P.verifyProof proof plan m'
  /-- The columns of a commitment are those of the batch it was made of. -/
  columnMetadata_commits : ∀ b c, L.Commits c b → P.columnsOf b.schema = some (P.columnMetadata c)
  /-- A result has the declared columns, in order. -/
  result_names : ∀ plan data setup proof, P.newProof plan data setup = .ok proof →
    (P.result proof).columns.keys = (P.resultFields plan).map ColumnField.name
  /-- Honest proofs are accepted, and acceptance yields the result with its columns typed as declared. -/
  complete : ∀ st refs acc plan rest m data setup proof t, P.tableRefs st = some refs →
    P.plans [st] acc = .ok (plan :: rest) →
    (∀ r ∈ refs, ∃ b d c, data.lookup r = some d ∧ P.tableData b 0 = some d ∧ m.lookup r = some c ∧
      acc r = some (P.columnMetadata c) ∧ L.Commits c b) →
    P.newProof plan data setup = .ok proof → P.TypedTable (P.resultFields plan) (P.result proof) t →
    P.verifyProof proof plan m = some t
  /-- Raw field elements do not convert. -/
  recordBatch_scalar : ∀ t b, P.recordBatch t = .ok b → ∀ c ∈ t.columns.entries, ¬ c.2.IsScalar
  deserializeProof_serializeProof : ∀ proof bytes, P.serializeProof proof = some bytes →
    P.deserializeProof bytes = some (proof, bytes.length)

end ProofSystem

end SxtEnterprise
