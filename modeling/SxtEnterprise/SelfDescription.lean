import SxtEnterprise.ColumnNames
import SxtEnterprise.Handlers
import SxtEnterprise.ReadOrder

/-!
# A table describes itself as it was declared

What is declared becomes an arrow schema, then a parquet file, then the columns of a commitment, and it is these that
`GET /tables/{table}` shows.  Every posted batch extends the stored log under the schema it was created with
(`Posted.step`), so the commitment is always of the declared columns and of all rows posted.
-/

namespace SxtEnterprise

open NumberedNames Paths FaultyRun

variable {ρ κ σ ω : Type}

/-- A decoder takes all the rows it is given. -/
def Api.DecodesAll (K : Codecs ρ ω) : Prop :=
  ∀ schema rows batch, K.decodeRows schema rows = some batch →
    (batch.getD (RecordBatch.newEmpty schema)).numRows = rows.length

/-- What a description relies on: committed columns have distinct names, the supported types survive the way to the
commitment and back, the parser knows the names they are shown under, and a decoder takes all rows it is given. -/
structure Describable (L : Libs ρ κ σ) (P : ProofSystem ρ κ σ) (K : Codecs ρ ω) : Prop where
  distinct : ∀ b c, L.Commits c b → (b.schema.map Field.name).Nodup
  inverse : ∀ t shown type, Column.columnTypeName t = .ok shown → P.columnType t = some type → P.dataType type = t
  names : Column.KnowsNames K.parseDataType
  decoded : Api.DecodesAll K

/-- A field of a schema, and the column it is in a commitment. -/
structure ProofSystem.Known (P : ProofSystem ρ κ σ) (field : Field) (column : Name × ColumnType) : Prop where
  name : column.1 = field.name
  columnType : P.columnType field.dataType = some column.2

/-- Columns with distinct names are known in order, each once. -/
theorem ProofSystem.known_columns (P : ProofSystem ρ κ σ) {schema : Schema} {columns : IndexMap Name ColumnType}
    (hnd : (schema.map Field.name).Nodup) (h : P.columnsOf schema = some columns) :
    List.Forall₂ P.Known schema columns.entries := by
  rw [ProofSystem.columnsOf, Option.map_eq_some_iff] at h
  obtain ⟨entries, hentries, rfl⟩ := h
  rw [mapM_eq_some_iff] at hentries
  have hknown : List.Forall₂ P.Known schema entries := hentries.imp fun field column hcolumn => by
    obtain ⟨type, htype, rfl⟩ := Option.map_eq_some_iff.mp hcolumn
    exact ⟨rfl, htype⟩
  have hnames : entries.map Prod.fst = schema.map Field.name := by
    clear hentries hnd
    induction hknown with
    | nil => rfl
    | cons hk _ ih => rw [List.map_cons, List.map_cons, ih, hk.name]
  rwa [IndexMap.entries_collect (by rw [hnames]; exact hnd)]

namespace Api

variable (L : Libs ρ κ σ) (K : Codecs ρ ω) (db : Db) (setup : σ)

/-- A `POST /tables/{table}/rows` that was answered with `201`. -/
def Posted (table : Name) (fs : Fs) (rows : List ω) (fs' : Fs) : Prop :=
  ∃ fates w', Lossless fates ∧ Api.insert L K db setup table rows ⟨fs, fates, []⟩ = (.ok 201, w') ∧ w'.state = fs'

/-- The shown column has the declared name, and a type name that stands for the declared type. -/
def Redeclares (K : Codecs ρ ω) (column shown : ColumnJson) : Prop :=
  shown.name = column.name ∧ ∃ t, Column.parseColumnType K.parseDataType column.dataType = .ok t ∧
    Column.parseColumnType K.parseDataType shown.dataType = .ok t

variable {L K db setup} {P : ProofSystem ρ κ σ} {r : TableRef} {table : Name} {fs fs' : Fs}

/-- What became of the declared columns is shown as they were declared. -/
theorem redeclares (h : Describable L P K) {columns : List ColumnJson} {schema : Schema}
    {entries : List (Name × ColumnType)} (hdeclares : List.Forall₂ (Declares K) columns schema)
    (hknown : List.Forall₂ P.Known schema entries) :
    ∃ shown, List.Forall₂ (Shows P) entries shown ∧ List.Forall₂ (Redeclares K) columns shown := by
  induction hdeclares generalizing entries with
  | nil =>
    rw [List.forall₂_nil_left_iff] at hknown
    exact ⟨[], hknown ▸ .nil, .nil⟩
  | cons hd _ ih =>
    obtain ⟨column, rest, hk, hrest, rfl⟩ := List.forall₂_cons_left_iff.mp hknown
    obtain ⟨shown, hshows, hredeclares⟩ := ih hrest
    obtain ⟨name, hname⟩ := Column.columnTypeName_of_parse hd.dataType
    have hback := h.inverse _ _ _ hname hk.columnType
    refine ⟨⟨column.1, name⟩ :: shown, .cons ⟨rfl, by rw [hback]; exact hname⟩ hshows, .cons ⟨?_, _, hd.dataType, ?_⟩
      hredeclares⟩
    · rw [hk.name, hd.name]
    · exact Column.parseColumnType_columnTypeName h.names hname

/-- **One posted batch**: the log is extended by as many rows as were posted. -/
theorem Posted.step (hL : L.Lawful) (h : Describable L P K) (htable : TableRef.fromStr table = some r)
    {e : TableLog ρ} {idx : List ℕ} (hs : Db.Stored L fs (db.tableDir r).loc e idx) {rows : List ω}
    (hpost : Posted L K db setup table fs rows fs') :
    ∃ e' idx', Db.Stored L fs' (db.tableDir r).loc e' idx' ∧ e'.schema = e.schema ∧
      e'.content.numRows = e.content.numRows + rows.length := by
  obtain ⟨fates, w', hl, hrun, rfl⟩ := hpost
  obtain ⟨r', hr', hlocked, -⟩ := insert_eq_ok.mp hrun
  obtain rfl : r = r' := Option.some.inj (htable.symm.trans hr')
  obtain ⟨schema, w₁, batch, hschema, hdecode, hinsert⟩ := insertLocked_eq_ok.mp hlocked
  have hreader : (Db.schema L db r).Reader := Db.reader_schema L r
  have hstate : w₁.state = fs := by
    have := hreader.state ⟨fs, fates, []⟩
    rwa [hschema] at this
  have hl₁ : Lossless w₁.fates := by
    have := hreader.lossless ⟨fs, fates, []⟩ hl
    rwa [hschema] at this
  subst hstate
  obtain ⟨hbs, n, hs'⟩ := hs.of_insert hL ⟨table, htable⟩ hl₁ hinsert
  refine ⟨_, _, hs', rfl, ?_⟩
  obtain ⟨decoded, hdecoded, rfl⟩ := decodeBatch_eq_ok.mp hdecode
  rw [RecordBatch.numRows, TableLog.content_push_rows, List.length_append, ← h.decoded schema rows decoded hdecoded]
  rfl

/-- **All of them.** -/
theorem Posted.run (hL : L.Lawful) (h : Describable L P K) (htable : TableRef.fromStr table = some r)
    {schema : Schema} {idx : List ℕ} (hs : Db.Stored L fs (db.tableDir r).loc (TableLog.new schema) idx)
    {posts : List (List ω)} (hposts : Runs (Posted L K db setup table) fs posts fs') :
    ∃ e idx', Db.Stored L fs' (db.tableDir r).loc e idx' ∧ e.schema = schema ∧
      e.content.numRows = (posts.map List.length).sum := by
  refine hposts.invariant (P := fun posts fs => ∃ e idx', Db.Stored L fs (db.tableDir r).loc e idx' ∧
    e.schema = schema ∧ e.content.numRows = (posts.map List.length).sum) (A := fun _ => True) (fun _ _ => trivial)
    ⟨_, idx, hs, rfl, rfl⟩ ?_
  rintro posts fs₁ rows fs₂ - ⟨e, idx', hs', hschema, hrows⟩ hpost
  obtain ⟨e', idx'', hs'', hschema', hrows'⟩ := hpost.step hL h htable hs'
  refine ⟨e', idx'', hs'', hschema'.trans hschema, ?_⟩
  rw [hrows', hrows, List.map_append, List.sum_append]
  simp

/-- **A table describes itself as it was declared.**  After a create and any number of inserts that were answered
with `201`, the columns shown are those declared, in order, and the number of rows is that of all rows posted. -/
theorem table_describes_itself (hL : L.Lawful) (hP : P.Lawful L) (h : Describable L P K) {columns : List ColumnJson}
    {w w₁ : World Fs (Loc Name)} (hl : Lossless w.fates)
    (hcreate : create L K db setup table columns w = (.ok 201, w₁)) {posts : List (List ω)}
    (hposts : Runs (Posted L K db setup table) w₁.state posts fs) :
    ∃ d, («show» L P K db table).eval fs = .ok d ∧ List.Forall₂ (Redeclares K) columns d.columns ∧
      d.numRows = (posts.map List.length).sum := by
  obtain ⟨r, schema, hbefore, hrun, -⟩ := create_eq_ok.mp hcreate
  obtain ⟨htable, hdeclares⟩ := createBefore_eq_ok.mp hbefore
  have hr : r.Parsed := ⟨table, htable⟩
  obtain ⟨hnul, hnew⟩ := Db.Stored.of_createTable hr hl hrun
  obtain ⟨e, idx, hs, hschema, hrows⟩ := Posted.run hL h htable hnew hposts
  obtain ⟨k, ⟨bytes, hserialize, hfile⟩, hcommits⟩ := hs.commitment
  have hk : (Db.tableCommitment L db r).eval fs = .ok k :=
    (Db.eval_tableCommitment_ok hr).mpr ⟨Db.present_of_dir hr hnul hs.isDir,
      Db.CommitmentFile.at hL ⟨bytes, hserialize, hfile⟩⟩
  have hcolumns := hP.columnMetadata_commits _ _ hcommits
  have hnd := h.distinct _ _ hcommits
  rw [TableLog.content_schema, hschema] at hcolumns hnd
  obtain ⟨shown, hshows, hredeclares⟩ := redeclares h hdeclares (P.known_columns hnd hcolumns)
  obtain ⟨setup', hsetup'⟩ := hcommits
  refine ⟨⟨shown, (posts.map List.length).sum, K.base64Encode bytes⟩, eval_show_ok.mpr ⟨r, k, htable, hk, hshows, ?_,
    encodeCommitment_eq_ok.mpr ⟨bytes, hserialize, rfl⟩⟩, hredeclares, rfl⟩
  rw [hL.numRows_commits _ _ _ hsetup' hs.rows_of_bare, ← hrows]

section Sample

open SampleLibs (home people)

open SampleService

theorem describable : Describable libs proofs codecs where
  distinct := by
    rintro b c ⟨setup, hc⟩
    exact (commitBatch_eq_ok.mp hc).1.1
  inverse := by
    rintro (_ | _ | _ | _ | _ | _ | display) shown type hname htype
    · obtain rfl := Option.some.inj htype; rfl
    · obtain rfl := Option.some.inj htype; rfl
    · obtain rfl := Option.some.inj htype; rfl
    · obtain rfl := Option.some.inj htype; rfl
    · obtain rfl := Option.some.inj htype; rfl
    · obtain rfl := Option.some.inj htype; rfl
    · simp [Column.columnTypeName] at hname
  names := by constructor <;> decide
  decoded := by
    intro schema rows batch h
    obtain rfl := Option.some.inj h
    by_cases hrows : rows = []
    · rw [if_pos hrows, hrows]; rfl
    · rw [if_neg hrows]; rfl

/-- One declared column. -/
def declared : List ColumnJson := [⟨"id".toList, "BIGINT".toList⟩]

def afterCreate : World Fs (Loc Name) :=
  (create libs codecs ⟨home⟩ 9 people.toString declared ⟨Db.sampleStart, [], []⟩).2

def afterPost : World Fs (Loc Name) := (insert libs codecs ⟨home⟩ 9 people.toString [1, 2] ⟨afterCreate.state, [], []⟩).2

def afterPosts : World Fs (Loc Name) := (insert libs codecs ⟨home⟩ 9 people.toString [3] ⟨afterPost.state, [], []⟩).2

theorem table_describes_itself_sample :
    ∃ d, («show» libs proofs codecs ⟨home⟩ people.toString).eval afterPosts.state = .ok d ∧
      List.Forall₂ (Redeclares codecs) declared d.columns ∧ d.numRows = 3 := by
  have hcreate : create libs codecs ⟨home⟩ 9 people.toString declared ⟨Db.sampleStart, [], []⟩
      = (.ok 201, afterCreate) := Prod.ext (by decide +kernel) rfl
  have hpost : insert libs codecs ⟨home⟩ 9 people.toString [1, 2] ⟨afterCreate.state, [], []⟩ = (.ok 201, afterPost) :=
    Prod.ext (by decide +kernel) rfl
  have hpost' : insert libs codecs ⟨home⟩ 9 people.toString [3] ⟨afterPost.state, [], []⟩ = (.ok 201, afterPosts) :=
    Prod.ext (by decide +kernel) rfl
  have hposts : Runs (Posted libs codecs ⟨home⟩ 9 people.toString) afterCreate.state [[1, 2], [3]] afterPosts.state :=
    Runs.cons ⟨[], _, Lossless.nil, hpost, rfl⟩ (Runs.cons ⟨[], _, Lossless.nil, hpost', rfl⟩ .nil)
  exact table_describes_itself libs_lawful proofs_lawful describable Lossless.nil hcreate hposts

end Sample

end Api

end SxtEnterprise
