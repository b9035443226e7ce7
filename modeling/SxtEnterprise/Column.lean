import SxtEnterprise.Libraries

/-!
# Column type names

`column.rs`: the SQL type names of the HTTP API, and the arrow types they stand for.
-/

namespace SxtEnterprise

open NumberedNames

/-- A column type name that could not be parsed or is not supported. -/
structure UnsupportedType where
  name : Name
  deriving DecidableEq

namespace Column

/-- The SQL types the service names, and every other. -/
inductive SqlType where
  | boolean
  | bool
  | tinyInt (width : Option ℕ)
  | smallInt (width : Option ℕ)
  | int (width : Option ℕ)
  | integer (width : Option ℕ)
  | bigInt (width : Option ℕ)
  | varchar (length : Option ℕ)
  | text
  | string (length : Option ℕ)
  | other (name : Name)
  deriving DecidableEq

/-- Parses a SQL type name into an arrow type; `parseDataType` is the parser's own `parse_data_type`. -/
def parseColumnType (parseDataType : Name → Option SqlType) (name : Name) : Except UnsupportedType DataType :=
  match parseDataType name with
  | none => .error ⟨name⟩
  | some parsed =>
    match parsed with
    | .boolean | .bool => .ok .boolean
    | .tinyInt _ => .ok .int8
    | .smallInt _ => .ok .int16
    | .int _ | .integer _ => .ok .int32
    | .bigInt _ => .ok .int64
    | .varchar _ | .text | .string _ => .ok .utf8
    | _ => .error ⟨name⟩

/-- The SQL type name a query against this column would use. -/
def columnTypeName : DataType → Except UnsupportedType Name
  | .boolean => .ok "BOOLEAN".toList
  | .int8 => .ok "TINYINT".toList
  | .int16 => .ok "SMALLINT".toList
  | .int32 => .ok "INT".toList
  | .int64 => .ok "BIGINT".toList
  | .utf8 => .ok "VARCHAR".toList
  | .other display => .error ⟨display⟩

/-- **Every type that can be asked for has a name**: what was parsed can be described again. -/
theorem columnTypeName_of_parse {parseDataType : Name → Option SqlType} {name : Name} {t : DataType}
    (h : parseColumnType parseDataType name = .ok t) : ∃ shown, columnTypeName t = .ok shown := by
  rw [parseColumnType] at h
  split at h
  · simp at h
  · split at h <;> simp only [Except.ok.injEq, reduceCtorEq] at h
    all_goals exact ⟨_, by rw [← h]; rfl⟩

end Column

end SxtEnterprise
