import SxtEnterprise.Cli
import SxtEnterprise.SampleLibs
import SxtEnterprise.Traverse

/-!
# A service that keeps every law

`Libs.Lawful`, `ProofSystem.Lawful` and `Codecs.Lawful` can be had together.  A statement is a table
reference and counts the rows of that table.  A proof is the batch it was made over, a commitment is the
batch it commits to, and a proof is accepted if it is what the commitment says; the count comes back as an
element of a small field.  Bytes are base64-encoded character by character, and responses are written down
as the numbers that encode them.
-/

namespace SxtEnterprise.SampleService

open NumberedNames FaultyRun SampleLibs

/-! ### The libraries of the database -/

/-- The column types a commitment supports. -/
def columnType : DataType → Option ColumnType
  | .boolean => some (.other "Boolean".toList)
  | .int8 => some .tinyInt
  | .int16 => some .smallInt
  | .int32 => some .int
  | .int64 => some .bigInt
  | .utf8 => some (.other "VarChar".toList)
  | .other _ => none

/-- Every column has a name of its own and a type that can be committed to. -/
def Supported (schema : Schema) : Prop :=
  (schema.map Field.name).Nodup ∧ ∀ field ∈ schema, (columnType field.dataType).isSome = true

instance (schema : Schema) : Decidable (Supported schema) := inferInstanceAs (Decidable (_ ∧ _))

/-- The batch at the start of some bytes, if it is encoded the way `encode` does it. -/
def decodeExactly (bytes : Bytes) : Option (RecordBatch UInt8 × ℕ) :=
  (decode bytes).filter fun x => encode x.1 = some (bytes.take x.2)

theorem unframe_append (rows : List UInt8) (rest : Bytes) :
    unframe (frame rows ++ rest) = some (rows, (frame rows).length) := by
  induction rows with
  | nil => cases rest <;> rfl
  | cons r rows ih => simp [frame, unframe, ih]

def libs : Libs UInt8 (RecordBatch UInt8) ℕ :=
  { SampleLibs.libs with
    commitBatch := fun b offset setup =>
      if Supported b.schema then SampleLibs.libs.commitBatch b offset setup else .error .error
    deserialize := decodeExactly }

theorem decodeExactly_eq_some {bytes : Bytes} {b : RecordBatch UInt8} {n : ℕ} :
    decodeExactly bytes = some (b, n) ↔ decode bytes = some (b, n) ∧ encode b = some (bytes.take n) := by
  rw [decodeExactly, Option.filter_eq_some_iff, decide_eq_true_eq]

/-- **Encodings are read off the start of what they begin.** -/
theorem decodeExactly_append {b : RecordBatch UInt8} {code : Bytes} (rest : Bytes) (h : encode b = some code) :
    decodeExactly (code ++ rest) = some (b, code.length) := by
  rw [decodeExactly_eq_some]
  refine ⟨?_, by rw [List.take_left]; exact h⟩
  rw [encode, Option.map_eq_some_iff] at h
  obtain ⟨t, ht, rfl⟩ := h
  rw [List.cons_append, decode, schemaOf_tagOf ht, unframe_append]
  rfl

theorem commitBatch_eq_ok {b c : RecordBatch UInt8} {offset setup : ℕ} :
    libs.commitBatch b offset setup = .ok c ↔ Supported b.schema ∧ b.schema ≠ floats ∧ b.numRows ≤ setup ∧ c = b := by
  have hsample : SampleLibs.libs.commitBatch b offset setup = .ok c ↔ _ := SampleLibs.commitBatch_eq_ok
  rw [← hsample]
  show (if _ then _ else _) = _ ↔ _
  split
  · rename_i h; simp [h]
  · rename_i h; simp [h]

theorem libs_lawful : libs.Lawful where
  parquetSchema_write := SampleLibs.libs_lawful.parquetSchema_write
  parquetSchema_bare := SampleLibs.libs_lawful.parquetSchema_bare
  parquetSchema_take := SampleLibs.libs_lawful.parquetSchema_take
  parquetSchema_nil := SampleLibs.libs_lawful.parquetSchema_nil
  parquetBatches_write := SampleLibs.libs_lawful.parquetBatches_write
  concatBatches_eq := SampleLibs.libs_lawful.concatBatches_eq
  append_commits a b c c' setup setup' hc ha hs := by
    obtain ⟨hsup, hf, hle, rfl⟩ := commitBatch_eq_ok.mp hc
    have hok := SampleLibs.libs_lawful.append_commits c b c c' setup setup'
      (SampleLibs.commitBatch_eq_ok.mpr ⟨hf, hle, rfl⟩) ha hs
    exact commitBatch_eq_ok.mpr ⟨hsup, SampleLibs.commitBatch_eq_ok.mp hok⟩
  commits_agree a c c' setup setup' h h' := by
    rw [(commitBatch_eq_ok.mp h).2.2.2, (commitBatch_eq_ok.mp h').2.2.2]
  numRows_commits a c setup h _ := by
    rw [(commitBatch_eq_ok.mp h).2.2.2]
    rfl
  deserialize_serialize c bytes h := decodeExactly_eq_some.mpr ⟨decode_encode h, by rw [List.take_length]; exact h⟩
  deserialize_take c bytes k h hk := by
    show decodeExactly _ = none
    rw [decodeExactly, decode_take h hk]
    rfl

/-! ### The proof system -/

/-- What the service calls a type. -/
def dataType : ColumnType → DataType
  | .tinyInt => .int8
  | .smallInt => .int16
  | .int => .int32
  | .bigInt => .int64
  | .other name =>
    if name = "Boolean".toList then .boolean else if name = "VarChar".toList then .utf8 else .other name
  | _ => .other []

/-- The one column of every result. -/
def counted (column : OwnedColumn (ZMod 1009) Unit) : OwnedTable (ZMod 1009) Unit :=
  ⟨⟨[("n".toList, column)], List.nodup_singleton _⟩, by simp⟩

/-- How many rows there are, as a field element. -/
def countOf (b : RecordBatch UInt8) : ZMod 1009 := b.numRows

/-- A table reference, if it is a parsed one. -/
def refsOf (st : TableRef) : Option (List TableRef) := if st.Parsed then some [st] else none

/-- One plan for one statement about a table whose columns are known. -/
def planOf (st : TableRef) (acc : TableRef → Option (IndexMap Name ColumnType)) :
    Except Failure (List TableRef) :=
  if (acc st).isSome then .ok [st] else .error .error

/-- The proof of a table's plan is its data. -/
def provedOf (data : Option (RecordBatch UInt8)) : Except Failure (RecordBatch UInt8) :=
  data.elim (.error .error) .ok

/-- The rows of a batch that an owned table becomes: bytes of its integers, if nothing in it is raw. -/
def batchOf (t : OwnedTable (ZMod 1009) Unit) : Except Failure (RecordBatch UInt8) :=
  match t.columns.entries with
  | [(name, .bigInt ns)] => .ok ⟨[⟨name, .int64, false⟩], ns.map fun n => UInt8.ofNat n.toNat⟩
  | _ => .error .panic

/-- A proof is accepted for a table if it is what the table's commitment says. -/
def verified (proof : RecordBatch UInt8) (plan : TableRef) (m : IndexMap TableRef (RecordBatch UInt8)) :
    Option (OwnedTable (ZMod 1009) Unit) :=
  if m.lookup plan = some proof then some (counted (.bigInt [(countOf proof).valMinAbs])) else none

def proofs : ProofSystem UInt8 (RecordBatch UInt8) ℕ where
  Statement := TableRef
  Plan := TableRef
  Scalar := ZMod 1009
  Value := Unit
  Data := RecordBatch UInt8
  Proof := RecordBatch UInt8
  parseSql sql := (TableRef.fromStr sql).map fun r => [r]
  tableRefs := refsOf
  plans sts acc :=
    match sts with
    | [st] => planOf st acc
    | _ => .error .error
  resultFields _ := [⟨"n".toList, .bigInt⟩]
  columnType := columnType
  dataType := dataType
  tableData b _ := some b
  newProof plan data _ := provedOf (data.lookup plan)
  result proof := counted (.scalar [countOf proof])
  verifyProof := verified
  columnMetadata c :=
    ((c.schema.mapM fun field => (columnType field.dataType).map (field.name, ·)).map IndexMap.collect).getD
      IndexMap.empty
  tryInto type s := if type.Holds s.valMinAbs then some s.valMinAbs else none
  recordBatch := batchOf
  serializeProof := encode
  deserializeProof := decodeExactly

theorem refsOf_eq_some {st : TableRef} {refs : List TableRef} (h : refsOf st = some refs) :
    st.Parsed ∧ refs = [st] := by
  rw [refsOf] at h
  split at h
  · rename_i hp
    exact ⟨hp, (Option.some.inj h).symm⟩
  · simp at h

theorem planOf_congr {st : TableRef} {acc acc' : TableRef → Option (IndexMap Name ColumnType)}
    (h : acc st = acc' st) : planOf st acc = planOf st acc' := by
  rw [planOf, planOf, h]

theorem planOf_eq_ok {st : TableRef} {acc : TableRef → Option (IndexMap Name ColumnType)}
    {plans : List TableRef} (h : planOf st acc = .ok plans) : plans = [st] := by
  rw [planOf] at h
  split at h
  · exact (Except.ok.inj h).symm
  · simp at h

theorem provedOf_eq_ok {data : Option (RecordBatch UInt8)} {proof : RecordBatch UInt8} :
    provedOf data = .ok proof ↔ data = some proof := by
  cases data <;> simp [provedOf]

theorem verified_congr {proof : RecordBatch UInt8} {plan : TableRef}
    {m m' : IndexMap TableRef (RecordBatch UInt8)} (h : m.lookup plan = m'.lookup plan) :
    verified proof plan m = verified proof plan m' := by
  rw [verified, verified, h]

theorem batchOf_eq_ok {t : OwnedTable (ZMod 1009) Unit} {b : RecordBatch UInt8} (h : batchOf t = .ok b) :
    ∃ name ns, t.columns.entries = [(name, .bigInt ns)] := by
  rw [batchOf] at h
  split at h
  · rename_i name ns heq
    exact ⟨name, ns, heq⟩
  · simp at h

/-- What is left of a result once its one column is typed. -/
theorem counted_of_typed {f : ZMod 1009} {t : OwnedTable (ZMod 1009) Unit}
    (h : proofs.TypedTable [⟨"n".toList, .bigInt⟩] (counted (.scalar [f])) t) : t = counted (.bigInt [f.valMinAbs]) := by
  obtain ⟨⟨entries, hnodup⟩, hsame⟩ := t
  have hkeys : entries.map Prod.fst = ["n".toList] := h.keys
  have hone : entries.length = 1 := by
    have := congrArg List.length hkeys
    simpa using this
  obtain ⟨⟨name, c⟩, rfl⟩ := List.length_eq_one_iff.mp hone
  obtain rfl : name = "n".toList := by simpa using hkeys
  have htyped : proofs.Typed .bigInt (.scalar [f]) c := h.typed 0 _ _ _ rfl rfl rfl
  cases htyped with
  | kept hno => exact absurd trivial hno
  | bigInt hns =>
    obtain ⟨n, ns, hn, hrest, rfl⟩ := List.forall₂_cons_left_iff.mp (mapM_eq_some_iff.mp hns)
    obtain rfl := List.forall₂_nil_left_iff.mp hrest
    change (if _ then some f.valMinAbs else none) = some n at hn
    split at hn
    · obtain rfl := Option.some.inj hn
      rfl
    · simp at hn

theorem proofs_lawful : proofs.Lawful libs where
  tableRefs_parsed st refs h r hr := by
    obtain ⟨hp, rfl⟩ := refsOf_eq_some h
    rwa [List.mem_singleton.mp hr]
  tableRefs_nodup st refs h := by
    obtain ⟨-, rfl⟩ := refsOf_eq_some h
    exact List.nodup_singleton _
  plans_congr st refs acc acc' h hacc := by
    obtain ⟨-, rfl⟩ := refsOf_eq_some h
    have hst : acc st = acc' st := hacc st List.mem_cons_self
    exact planOf_congr hst
  verifyProof_congr st refs acc plan rest m m' proof h hplan hm := by
    obtain ⟨-, rfl⟩ := refsOf_eq_some h
    obtain ⟨rfl, -⟩ := List.cons.inj (planOf_eq_ok hplan)
    exact verified_congr (hm plan List.mem_cons_self)
  columnMetadata_commits b c h := by
    obtain ⟨setup, hc⟩ := h
    obtain ⟨hsup, -, -, rfl⟩ := commitBatch_eq_ok.mp hc
    have hall : ∃ ts, c.schema.mapM (fun field => (columnType field.dataType).map (field.name, ·)) = some ts := by
      rw [exists_mapM_iff]
      intro field hfield
      obtain ⟨t, ht⟩ := Option.isSome_iff_exists.mp (hsup.2 field hfield)
      exact ⟨_, by rw [ht]; rfl⟩
    obtain ⟨ts, hts⟩ := hall
    have hcols : proofs.columnsOf c.schema = some (IndexMap.collect ts) := by
      show (c.schema.mapM fun field => (columnType field.dataType).map (field.name, ·)).map IndexMap.collect = _
      rw [hts]
      rfl
    rw [hcols]
    show _ = some ((proofs.columnsOf c.schema).getD IndexMap.empty)
    rw [hcols]
    rfl
  result_names plan data setup proof _ := rfl
  complete st refs acc plan rest m data setup proof t h hplan hcommits hproof htyped := by
    obtain ⟨-, rfl⟩ := refsOf_eq_some h
    obtain ⟨rfl, -⟩ := List.cons.inj (planOf_eq_ok hplan)
    obtain ⟨b, d, c, hd, hb, hc, -, setup', hcommit⟩ := hcommits plan List.mem_cons_self
    obtain rfl : b = d := Option.some.inj hb
    obtain ⟨-, -, -, rfl⟩ := commitBatch_eq_ok.mp hcommit
    obtain rfl : c = proof := Option.some.inj (hd.symm.trans (provedOf_eq_ok.mp hproof))
    rw [counted_of_typed htyped]
    exact if_pos hc
  recordBatch_scalar t b h c hc hscalar := by
    obtain ⟨name, ns, heq⟩ := batchOf_eq_ok h
    obtain rfl : c = (name, .bigInt ns) := List.mem_singleton.mp (heq ▸ hc)
    exact hscalar
  deserializeProof_serializeProof proof bytes h :=
    decodeExactly_eq_some.mpr ⟨decode_encode h, by rw [List.take_length]; exact h⟩

/-! ### Encodings -/

/-- A character for each byte. -/
def toText (bytes : Bytes) : Name := bytes.map fun b => Char.ofNat b.toNat

/-- The bytes of a text of such characters. -/
def ofText (s : Name) : Option Bytes :=
  if toText (s.map fun c => UInt8.ofNat c.toNat) = s then some (s.map fun c => UInt8.ofNat c.toNat) else none

def numbers (s : Name) : List ℕ := s.map Char.toNat

def letters (ns : List ℕ) : Name := ns.map Char.ofNat

@[simp] theorem letters_numbers (s : Name) : letters (numbers s) = s := by
  rw [letters, numbers, List.map_map]
  exact (List.map_congr_left fun c _ => Char.ofNat_toNat c).trans (List.map_id s)

/-- A response as numbers: its rows, its proof and its tables. -/
def flatten (r : QueryResult UInt8) : List ℕ × List ℕ × List (List ℕ × List ℕ × ℕ) :=
  (r.rows.map UInt8.toNat, numbers r.proof,
    r.tables.entries.map fun e => (numbers e.1, numbers e.2.commitment, e.2.numRows))

/-- The response numbers stand for, if its tables have names of their own. -/
def unflatten (x : List ℕ × List ℕ × List (List ℕ × List ℕ × ℕ)) : Option (QueryResult UInt8) :=
  if h : ((x.2.2.map fun e => (letters e.1, (⟨letters e.2.1, e.2.2⟩ : QueriedTable))).map Prod.fst).Nodup then
    some ⟨x.1.map UInt8.ofNat, letters x.2.1, ⟨_, h⟩⟩
  else none

theorem unflatten_flatten (r : QueryResult UInt8) : unflatten (flatten r) = some r := by
  obtain ⟨rows, proof, entries, hnodup⟩ := r
  have hentries : ((flatten ⟨rows, proof, entries, hnodup⟩).2.2.map fun e =>
      (letters e.1, (⟨letters e.2.1, e.2.2⟩ : QueriedTable))) = entries := by
    simp [flatten, List.map_map, Function.comp_def]
  have hrows : (rows.map UInt8.toNat).map UInt8.ofNat = rows := by
    simp [List.map_map, Function.comp_def]
  rw [unflatten, dif_pos (by rw [hentries]; exact hnodup)]
  simp only [hentries]
  simp [flatten, hrows]

/-- The type names of the service. -/
def typeNamed (name : Name) : Option Column.SqlType :=
  if name = "BOOLEAN".toList then some .boolean
  else if name = "TINYINT".toList then some (.tinyInt none)
  else if name = "SMALLINT".toList then some (.smallInt none)
  else if name = "INT".toList then some (.int none)
  else if name = "BIGINT".toList then some (.bigInt none)
  else if name = "VARCHAR".toList then some (.varchar none)
  else none

def codecs : Codecs UInt8 UInt8 where
  writeJson b := some b.rows
  parseRows bytes := some bytes
  decodeRows schema rows := some (if rows = [] then none else some ⟨schema, rows⟩)
  base64Encode := toText
  base64Decode := ofText
  writeResponse r := List.replicate (Encodable.encode (flatten r)) 0
  parseResponse bytes := (Encodable.decode bytes.length).bind unflatten
  prettyFormat b := some (toText b.rows)
  parseDataType := typeNamed

/-- What a query for `people` is answered when `b` is committed to. -/
def answerFor (b : RecordBatch UInt8) : QueryResult UInt8 :=
  let code := toText ((encode b).getD [])
  ⟨[UInt8.ofNat b.numRows], code, IndexMap.collect [(people.toString, ⟨code, b.numRows⟩)]⟩

theorem ofText_eq_some {s : Name} {bytes : Bytes} : ofText s = some bytes ↔ toText bytes = s := by
  have hback : ∀ b : UInt8, UInt8.ofNat (Char.ofNat b.toNat).toNat = b := by decide +kernel
  have hbytes : ∀ bytes : Bytes, (toText bytes).map (fun c => UInt8.ofNat c.toNat) = bytes := fun bytes => by
    rw [toText, List.map_map]
    exact (List.map_congr_left fun b _ => hback b).trans (List.map_id bytes)
  rw [ofText]
  constructor
  · intro h
    split at h
    · rename_i hs
      rwa [← Option.some.inj h]
    · simp at h
  · rintro rfl
    rw [hbytes, if_pos rfl]

theorem parseResponse_writeResponse (r : QueryResult UInt8) :
    codecs.parseResponse (codecs.writeResponse r) = some r := by
  show (Encodable.decode (List.replicate _ (0 : UInt8)).length).bind unflatten = some r
  rw [List.length_replicate, Encodable.encodek]
  exact unflatten_flatten r

theorem codecs_lawful : codecs.Lawful proofs where
  base64 _ := ofText_eq_some.mpr rfl
  response r := ⟨r, parseResponse_writeResponse r, rfl, List.Perm.refl _⟩
  display _ _ _ := ⟨_, rfl⟩

end SxtEnterprise.SampleService
