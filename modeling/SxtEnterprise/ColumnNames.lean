import SxtEnterprise.SampleService

/-!
# Which type names are accepted

A SQL parser reads the data type at the start of a list of tokens and hands back the tokens it leaves unread,
and `parseColumnType` does not look at those.  So a name is accepted when its tokens begin with a type of a
supported family (`parseColumnType_eq_ok`), which is what the whole of it should be; the two agree on exactly
the names of which the parser leaves nothing over.
-/

namespace SxtEnterprise

open NumberedNames

namespace Column

/-- A SQL parser, over tokens `τ`. -/
structure SqlParser (τ : Type) where
  /-- The tokens of a text, without white space and comments and whatever the case of its keywords. -/
  tokens : Name → Option (List τ)
  /-- `parse_data_type`: the type at the start of some tokens, and those it leaves unread. -/
  dataType : List τ → Option (SqlType × List τ)

variable {τ : Type} (S : SqlParser τ)

/-- `try_with_sql`, and then `parse_data_type`. -/
def SqlParser.parseDataType (name : Name) : Option SqlType := do
  let tokens ← S.tokens name
  let parsed ← S.dataType tokens
  pure parsed.1

/-- The arrow type of the supported families. -/
def arrowType : SqlType → Option DataType
  | .boolean | .bool => some .boolean
  | .tinyInt _ => some .int8
  | .smallInt _ => some .int16
  | .int _ | .integer _ => some .int32
  | .bigInt _ => some .int64
  | .varchar _ | .text | .string _ => some .utf8
  | .other _ => none

/-- The parser knows the names the service shows types under. -/
structure KnowsNames (parseDataType : Name → Option SqlType) : Prop where
  boolean : parseDataType "BOOLEAN".toList = some .boolean
  tinyInt : parseDataType "TINYINT".toList = some (.tinyInt none)
  smallInt : parseDataType "SMALLINT".toList = some (.smallInt none)
  int : parseDataType "INT".toList = some (.int none)
  bigInt : parseDataType "BIGINT".toList = some (.bigInt none)
  varchar : parseDataType "VARCHAR".toList = some (.varchar none)

/-- The whole of `name` is one type of a supported family, with nothing left over. -/
def IsTypeName (name : Name) (t : DataType) : Prop :=
  ∃ tokens parsed, S.tokens name = some tokens ∧ S.dataType tokens = some (parsed, []) ∧ arrowType parsed = some t

/-- The parser finds a type of a supported family at the start of `name`, and leaves tokens unread. -/
def LeavesTokens (name : Name) : Prop :=
  ∃ tokens parsed rest t, S.tokens name = some tokens ∧ S.dataType tokens = some (parsed, rest) ∧ rest ≠ [] ∧
    arrowType parsed = some t

/-- `name` is accepted if it is a type name and refused otherwise, and an accepted type is shown under a name
that stands for it. -/
structure AcceptsExactly (name : Name) : Prop where
  accepted : ∀ t, parseColumnType S.parseDataType name = .ok t ↔ IsTypeName S name t
  refused : (∀ t, ¬ IsTypeName S name t) → parseColumnType S.parseDataType name = .error ⟨name⟩
  shown : ∀ t, parseColumnType S.parseDataType name = .ok t →
    ∃ shown, columnTypeName t = .ok shown ∧ parseColumnType S.parseDataType shown = .ok t

variable {S} {name : Name} {t : DataType}

/-- The supported families are those with an arrow type. -/
theorem parseColumnType_eq {parseDataType : Name → Option SqlType} :
    parseColumnType parseDataType name = match (parseDataType name).bind arrowType with
      | some t => .ok t
      | none => .error ⟨name⟩ := by
  rw [parseColumnType]
  rcases parseDataType name with _ | parsed
  · rfl
  · cases parsed <;> rfl

theorem parseColumnType_eq_ok : parseColumnType S.parseDataType name = .ok t ↔
    ∃ tokens parsed rest, S.tokens name = some tokens ∧ S.dataType tokens = some (parsed, rest) ∧
      arrowType parsed = some t := by
  have hbind : (S.parseDataType name).bind arrowType = some t ↔ ∃ tokens parsed rest,
      S.tokens name = some tokens ∧ S.dataType tokens = some (parsed, rest) ∧ arrowType parsed = some t := by
    simp only [SqlParser.parseDataType, Option.bind_eq_bind, Option.bind_eq_some_iff, Option.pure_def,
      Option.some.injEq, Prod.exists]
    constructor
    · rintro ⟨_, ⟨tokens, ht, parsed, rest, hp, rfl⟩, ha⟩
      exact ⟨tokens, parsed, rest, ht, hp, ha⟩
    · rintro ⟨tokens, parsed, rest, ht, hp, ha⟩
      exact ⟨parsed, ⟨tokens, ht, parsed, rest, hp, rfl⟩, ha⟩
  rw [parseColumnType_eq, ← hbind]
  rcases (S.parseDataType name).bind arrowType with _ | t' <;> simp

/-- What is not accepted is refused under its own name. -/
theorem parseColumnType_refused {parseDataType : Name → Option SqlType}
    (h : ∀ t, parseColumnType parseDataType name ≠ .ok t) :
    parseColumnType parseDataType name = .error ⟨name⟩ := by
  rw [parseColumnType_eq] at h ⊢
  rcases hb : (parseDataType name).bind arrowType with _ | t
  · rfl
  · rw [hb] at h
    exact absurd rfl (h t)

/-- **Types are shown under names that stand for them.** -/
theorem parseColumnType_columnTypeName {parseDataType : Name → Option SqlType} (hS : KnowsNames parseDataType)
    {shown : Name} (h : columnTypeName t = .ok shown) : parseColumnType parseDataType shown = .ok t := by
  cases t <;> simp only [columnTypeName, Except.ok.injEq, reduceCtorEq] at h <;> subst h
  · rw [parseColumnType_eq, hS.boolean]; rfl
  · rw [parseColumnType_eq, hS.tinyInt]; rfl
  · rw [parseColumnType_eq, hS.smallInt]; rfl
  · rw [parseColumnType_eq, hS.int]; rfl
  · rw [parseColumnType_eq, hS.bigInt]; rfl
  · rw [parseColumnType_eq, hS.varchar]; rfl

/-- **Exactly the type names are accepted, but for names of which tokens are left over.** -/
theorem accepts_exactly_iff (hS : KnowsNames S.parseDataType) : AcceptsExactly S name ↔ ¬ LeavesTokens S name := by
  constructor
  · rintro h ⟨tokens, parsed, rest, t, htokens, hparsed, hrest, ht⟩
    -- the name is accepted, so the parser has left nothing
    obtain ⟨tokens', parsed', htokens', hparsed', -⟩ :=
      (h.accepted t).mp (parseColumnType_eq_ok.mpr ⟨tokens, parsed, rest, htokens, hparsed, ht⟩)
    obtain rfl : tokens = tokens' := Option.some.inj (htokens.symm.trans htokens')
    rw [hparsed, Option.some.injEq, Prod.mk.injEq] at hparsed'
    exact hrest hparsed'.2
  · intro hno
    have haccepted : ∀ t, parseColumnType S.parseDataType name = .ok t ↔ IsTypeName S name t := by
      intro t
      rw [parseColumnType_eq_ok]
      constructor
      · rintro ⟨tokens, parsed, rest, htokens, hparsed, ht⟩
        by_cases hrest : rest = []
        · exact ⟨tokens, parsed, htokens, hrest ▸ hparsed, ht⟩
        · exact absurd ⟨tokens, parsed, rest, t, htokens, hparsed, hrest, ht⟩ hno
      · rintro ⟨tokens, parsed, htokens, hparsed, ht⟩
        exact ⟨tokens, parsed, [], htokens, hparsed, ht⟩
    refine ⟨haccepted, fun h => parseColumnType_refused fun t ht => h t ((haccepted t).mp ht), fun t ht => ?_⟩
    obtain ⟨shown, hshown⟩ := columnTypeName_of_parse ht
    exact ⟨shown, hshown, parseColumnType_columnTypeName hS hshown⟩

section Sample

open SampleService

/-- Words in whatever case, and the type the first of them names. -/
def wordParser : SqlParser Name where
  tokens name := some (((name.splitOn ' ').filter (· ≠ [])).map fun word => word.map Char.toUpper)
  dataType tokens :=
    match tokens with
    | [] => none
    | word :: rest => (typeNamed word).map fun parsed => (parsed, rest)

theorem wordParser_knowsNames : KnowsNames wordParser.parseDataType := by
  constructor <;> decide +kernel

theorem accepts_exactly_iff_sample :
    AcceptsExactly wordParser " bigint ".toList ↔ ¬ LeavesTokens wordParser " bigint ".toList :=
  accepts_exactly_iff wordParser_knowsNames

/-- **What follows a type is not looked at.** -/
theorem leftover_is_accepted : parseColumnType wordParser.parseDataType "BIGINT foo".toList = .ok .int64 ∧
    ¬ AcceptsExactly wordParser "BIGINT foo".toList := by
  have haccepted : parseColumnType wordParser.parseDataType "BIGINT foo".toList = .ok .int64 := by decide +kernel
  refine ⟨haccepted, fun h => ?_⟩
  obtain ⟨tokens, parsed, htokens, hparsed, -⟩ := (h.accepted _).mp haccepted
  have hwords : wordParser.tokens "BIGINT foo".toList = some ["BIGINT".toList, "FOO".toList] := by decide +kernel
  obtain rfl : _ = tokens := Option.some.inj (hwords.symm.trans htokens)
  have hrest : wordParser.dataType ["BIGINT".toList, "FOO".toList] = some (.bigInt none, ["FOO".toList]) := by
    decide +kernel
  rw [hrest] at hparsed
  simp at hparsed

end Sample

end Column

end SxtEnterprise
