import SxtEnterprise.DbWrites
import SxtEnterprise.SampleService

/-!
# What the handlers have done when they answer

One lemma for each handler of the API, and for the functions it is made of: a successful answer taken apart into
the database calls that were made and what became of their results.
-/

namespace SxtEnterprise

open NumberedNames FaultyRun

namespace Api

variable {ρ κ σ ω : Type} {L : Libs ρ κ σ} {P : ProofSystem ρ κ σ} {K : Codecs ρ ω} {db : Db} {setup : σ}
  {w w' : World Fs (Loc Name)} {r : TableRef} {schema : Schema} {table : Name} {status : ℕ}

/-! ### Creating -/

/-- A declared column, and the field it becomes. -/
structure Declares (K : Codecs ρ ω) (column : ColumnJson) (field : Field) : Prop where
  name : field.name = column.name
  dataType : Column.parseColumnType K.parseDataType column.dataType = .ok field.dataType
  nullable : field.nullable = false

theorem createBefore_eq_ok {columns : List ColumnJson} : createBefore K table columns = .ok (r, schema) ↔
    TableRef.fromStr table = some r ∧ List.Forall₂ (Declares K) columns schema := by
  have hfield : ∀ (column : ColumnJson) (field : Field), (do
      let dataType ← Column.parseColumnType K.parseDataType column.dataType
      pure (⟨column.name, dataType, false⟩ : Field) : Except UnsupportedType Field) = .ok field ↔
        Declares K column field := by
    intro column field
    constructor
    · intro h
      rcases ht : Column.parseColumnType K.parseDataType column.dataType with e | t
      · rw [ht] at h
        simp [bind, Except.bind] at h
      · rw [ht] at h
        obtain rfl : (⟨column.name, t, false⟩ : Field) = field := Except.ok.inj h
        exact ⟨rfl, ht, rfl⟩
    · rintro ⟨hname, htype, hnull⟩
      rw [htype]
      change Except.ok _ = Except.ok _
      rw [← hname, ← hnull]
  have hfields : ∀ schema', columns.mapM (fun column => (do
      let dataType ← Column.parseColumnType K.parseDataType column.dataType
      pure (⟨column.name, dataType, false⟩ : Field) : Except UnsupportedType Field)) = .ok schema' ↔
        List.Forall₂ (Declares K) columns schema' := by
    intro schema'
    rw [mapM_eq_ok_iff]
    simp only [hfield]
  rw [createBefore, Outcome.bind_eq_ok]
  constructor
  · rintro ⟨r', hr, h⟩
    rw [Outcome.ofOption_eq_ok] at hr
    dsimp only at h
    split at h
    · rename_i schema' hs
      rw [Outcome.pure_eq_ok, Prod.mk.injEq] at h
      obtain ⟨rfl, rfl⟩ := h
      exact ⟨hr, (hfields _).mp hs⟩
    · simp at h
  · rintro ⟨hr, hs⟩
    refine ⟨r, Outcome.ofOption_eq_ok.mpr hr, ?_⟩
    dsimp only
    rw [(hfields schema).mpr hs]
    rfl

theorem create_eq_ok {columns : List ColumnJson} : create L K db setup table columns w = (.ok status, w') ↔
    ∃ r schema, createBefore K table columns = .ok (r, schema) ∧
      db.createTable L r schema setup w = (.ok (), w') ∧ status = 201 := by
  rw [create, Prog.bind_eq_ok]
  constructor
  · rintro ⟨⟨r, schema⟩, w₁, hbefore, h⟩
    obtain ⟨hdeclared, rfl⟩ := Prog.ofOutcome_eq_ok.mp hbefore
    obtain ⟨u, w₂, hlocked, hp⟩ := Prog.bind_eq_ok.mp h
    rw [Prog.pure_run, Prod.mk.injEq, Outcome.ok.injEq] at hp
    obtain ⟨rfl, rfl⟩ := hp
    exact ⟨r, schema, hdeclared, Prog.mapErr_eq_ok.mp hlocked, rfl⟩
  · rintro ⟨r, schema, hbefore, hcreate, rfl⟩
    exact ⟨_, w, Prog.ofOutcome_eq_ok.mpr ⟨hbefore, rfl⟩,
      Prog.bind_eq_ok.mpr ⟨(), w', Prog.mapErr_eq_ok.mpr hcreate, rfl⟩⟩

/-! ### Inserting -/

theorem decodeBatch_eq_ok {rows : List ω} {batch : RecordBatch ρ} : decodeBatch K schema rows = .ok batch ↔
    ∃ decoded, K.decodeRows schema rows = some decoded ∧ decoded.getD (RecordBatch.newEmpty schema) = batch := by
  rw [decodeBatch, Outcome.bind_eq_ok]
  simp only [Outcome.ofOption_eq_ok, Outcome.pure_eq_ok]

theorem insertLocked_eq_ok {rows : List ω} : insertLocked L K db setup r rows w = (.ok (), w') ↔
    ∃ schema w₁ batch, Db.schema L db r w = (.ok schema, w₁) ∧ decodeBatch K schema rows = .ok batch ∧
      Db.insert L db r batch setup w₁ = (.ok (), w') := by
  rw [insertLocked, Prog.bind_eq_ok]
  constructor
  · rintro ⟨schema, w₁, hs, h⟩
    obtain ⟨batch, w₂, hbatch, hinsert⟩ := Prog.bind_eq_ok.mp h
    obtain ⟨hdecoded, rfl⟩ := Prog.ofOutcome_eq_ok.mp hbatch
    exact ⟨schema, w₂, batch, Prog.mapErr_eq_ok.mp hs, hdecoded, Prog.mapErr_eq_ok.mp hinsert⟩
  · rintro ⟨schema, w₁, batch, hs, hbatch, hinsert⟩
    exact ⟨schema, w₁, Prog.mapErr_eq_ok.mpr hs, Prog.bind_eq_ok.mpr
      ⟨batch, w₁, Prog.ofOutcome_eq_ok.mpr ⟨hbatch, rfl⟩, Prog.mapErr_eq_ok.mpr hinsert⟩⟩

theorem insert_eq_ok {rows : List ω} : insert L K db setup table rows w = (.ok status, w') ↔
    ∃ r, TableRef.fromStr table = some r ∧ insertLocked L K db setup r rows w = (.ok (), w') ∧ status = 201 := by
  rw [insert, Prog.bind_eq_ok]
  constructor
  · rintro ⟨r, w₁, hbefore, h⟩
    obtain ⟨hr, rfl⟩ := Prog.ofOutcome_eq_ok.mp hbefore
    rw [insertBefore, Outcome.ofOption_eq_ok] at hr
    obtain ⟨u, w₂, hlocked, hp⟩ := Prog.bind_eq_ok.mp h
    rw [Prog.pure_run, Prod.mk.injEq, Outcome.ok.injEq] at hp
    obtain ⟨rfl, rfl⟩ := hp
    exact ⟨r, hr, hlocked, rfl⟩
  · rintro ⟨r, hr, hlocked, rfl⟩
    exact ⟨r, w, Prog.ofOutcome_eq_ok.mpr ⟨Outcome.ofOption_eq_ok.mpr hr, rfl⟩,
      Prog.bind_eq_ok.mpr ⟨(), w', hlocked, rfl⟩⟩

/-- What a post runs once its table reference is parsed. -/
theorem insert_run {rows : List ω} (hr : TableRef.fromStr table = some r) : insert L K db setup table rows w = (do
    let schema ← Prog.mapErr .db (Db.schema L db r)
    let batch ← Prog.ofOutcome (decodeBatch K schema rows)
    Prog.mapErr .db (Db.insert L db r batch setup)
    pure 201 : Io RowsError ℕ) w := by
  rw [insert, insertBefore, hr]
  show (do
    insertLocked L K db setup r rows
    pure 201 : Io RowsError ℕ) w = _
  simp only [insertLocked, bind_assoc]

/-- A post to a table whose schema cannot be read is answered with an error, and changes nothing. -/
theorem insert_unread {rows : List ω} {o : Outcome RowsError ℕ} (hr : TableRef.fromStr table = some r)
    (hl : Lossless w.fates) (hs : ∀ schema, (Db.schema L db r).eval w.state ≠ .ok schema)
    (h : insert L K db setup table rows w = (o, w')) : w'.state = w.state ∧ o ≠ .ok 201 ∧ o ≠ .panic := by
  have hreads := Db.reads_schema L db r
  have hm : ∀ x, (Prog.mapErr RowsError.db (Db.schema L db r) w).1 ≠ .ok x := fun x hx =>
    hs x (hreads.reader.honest w x hl (Outcome.mapErr_eq_ok.mp hx))
  obtain ⟨h1, h2, h3⟩ := Prog.bind_run_stopped hm (hreads.noPanic.mapErr w) (f := fun schema => do
    let batch ← Prog.ofOutcome (decodeBatch K schema rows)
    Prog.mapErr .db (Db.insert L db r batch setup)
    pure 201)
  rw [← insert_run hr, h] at h1 h2 h3
  refine ⟨?_, h2 201, h3⟩
  rw [show w' = (Db.schema L db r w).2 from h1]
  exact hreads.reader.state w

/-- **Every way a post to a table with a schema can end**: nothing was inserted, since the schema was not read or the
rows were not decoded; or the database's insert decides. -/
theorem insert_ends {rows : List ω} {o : Outcome RowsError ℕ} (hr : TableRef.fromStr table = some r)
    (hl : Lossless w.fates) (hs : (Db.schema L db r).eval w.state = .ok schema)
    (h : insert L K db setup table rows w = (o, w')) :
    (w'.state = w.state ∧ o ≠ .ok 201 ∧ o ≠ .panic ∧
      ((∃ f ∈ w.fates.take 2, f.stops = true) ∨ K.decodeRows schema rows = none)) ∨
    ∃ batch w₁ inserted w₂, decodeBatch K schema rows = .ok batch ∧ (∀ f ∈ w.fates.take 2, f.stops = false) ∧
      w₁.state = w.state ∧ w₁.fates = w.fates.drop 2 ∧ Db.insert L db r batch setup w₁ = (inserted, w₂) ∧
        w'.state = w₂.state ∧ (o = .ok 201 ↔ inserted = .ok ()) ∧ (o = .panic ↔ inserted = .panic) := by
  have hreads := Db.reads_schema L db r
  rw [insert_run hr] at h
  rcases hread : Db.schema L db r w with ⟨read, w₁⟩
  have hstate : w₁.state = w.state := by
    have := hreads.reader.state w
    rwa [hread] at this
  by_cases hok : ∃ schema', read = .ok schema'
  · obtain ⟨schema', rfl⟩ := hok
    obtain rfl : schema' = schema :=
      Outcome.ok.inj ((hreads.reader.honest w _ hl (by rw [hread])).symm.trans hs)
    obtain ⟨hgo, hdrop⟩ := hreads.calls w _ _ hl hread
    rw [Prog.bind_run_ok (Prog.mapErr_eq_ok.mpr hread)] at h
    rcases hdecode : K.decodeRows schema' rows with _ | decoded
    · left
      rw [decodeBatch, hdecode] at h
      change (Outcome.err RowsError.decode, w₁) = (o, w') at h
      rw [Prod.mk.injEq] at h
      obtain ⟨rfl, rfl⟩ := h
      exact ⟨hstate, by simp, by simp, Or.inr rfl⟩
    · right
      have hbatch : decodeBatch K schema' rows = .ok (decoded.getD (RecordBatch.newEmpty schema')) := by
        rw [decodeBatch, hdecode]
        rfl
      rw [Prog.bind_run_ok (Prog.ofOutcome_eq_ok.mpr ⟨hbatch, rfl⟩)] at h
      rcases hins : Db.insert L db r (decoded.getD (RecordBatch.newEmpty schema')) setup w₁ with ⟨inserted, w₂⟩
      refine ⟨_, w₁, inserted, w₂, hbatch, hgo, hstate, hdrop, hins, ?_⟩
      rw [Prog.andThen_run, Prog.mapErr, hins] at h
      rcases inserted with u | e | _ | _ <;>
      · simp only [Outcome.mapErr, Prog.castStop, Prog.pure_run, Prod.mk.injEq] at h
        obtain ⟨rfl, rfl⟩ := h
        simp
  · left
    have hm : ∀ x, (Prog.mapErr RowsError.db (Db.schema L db r) w).1 ≠ .ok x := fun x hx =>
      hok ⟨x, by rw [Prog.mapErr, Outcome.mapErr_eq_ok, hread] at hx; exact hx⟩
    obtain ⟨h1, h2, h3⟩ := Prog.bind_run_stopped hm (hreads.noPanic.mapErr w) (f := fun schema => do
      let batch ← Prog.ofOutcome (decodeBatch K schema rows)
      Prog.mapErr .db (Db.insert L db r batch setup)
      pure 201)
    rw [h] at h1 h2 h3
    refine ⟨?_, h2 201, h3, Or.inl ?_⟩
    · rw [show w' = (Db.schema L db r w).2 from h1, hread, hstate]
    · by_contra hgo
      simp only [not_exists, not_and, Bool.not_eq_true] at hgo
      have := (hreads.steady w hl hgo).trans hs
      rw [hread] at this
      exact hok ⟨schema, this⟩

/-! ### Describing -/

theorem encodeCommitment_eq_ok {k : κ} {text : Name} : encodeCommitment L K k = .ok text ↔
    ∃ bytes, L.serialize k = some bytes ∧ K.base64Encode bytes = text := by
  rw [encodeCommitment, Outcome.bind_eq_ok]
  simp only [Outcome.ofOption_eq_ok, Outcome.pure_eq_ok]

/-- A column of a commitment, and what it is shown as. -/
structure Shows (P : ProofSystem ρ κ σ) (column : Name × ColumnType) (shown : ColumnJson) : Prop where
  name : shown.name = column.1
  dataType : Column.columnTypeName (P.dataType column.2) = .ok shown.dataType

theorem showAfter_eq_ok {m : IndexMap TableRef κ} {k : κ} (hk : m.lookup r = some k) {d : TableDescription} :
    showAfter L P K r m = .ok d ↔ List.Forall₂ (Shows P) (P.columnMetadata k).entries d.columns ∧
      d.numRows = L.numRows k ∧ encodeCommitment L K k = .ok d.commitment := by
  have hcolumn : ∀ (column : Name × ColumnType) (shown : ColumnJson), (do
      let dataType ← Column.columnTypeName (P.dataType column.2)
      pure (⟨column.1, dataType⟩ : ColumnJson) : Except UnsupportedType ColumnJson) = .ok shown ↔
        Shows P column shown := by
    intro column shown
    constructor
    · intro h
      rcases ht : Column.columnTypeName (P.dataType column.2) with e | t
      · rw [ht] at h
        simp [bind, Except.bind] at h
      · rw [ht] at h
        obtain rfl : (⟨column.1, t⟩ : ColumnJson) = shown := Except.ok.inj h
        exact ⟨rfl, ht⟩
    · rintro ⟨hname, htype⟩
      rw [htype]
      change Except.ok _ = Except.ok _
      rw [← hname]
  have hcolumns : ∀ shown, (P.columnMetadata k).entries.mapM (fun column => (do
      let dataType ← Column.columnTypeName (P.dataType column.2)
      pure (⟨column.1, dataType⟩ : ColumnJson) : Except UnsupportedType ColumnJson)) = .ok shown ↔
        List.Forall₂ (Shows P) (P.columnMetadata k).entries shown := by
    intro shown
    rw [mapM_eq_ok_iff]
    simp only [hcolumn]
  rw [showAfter, hk]
  dsimp only
  constructor
  · intro h
    split at h
    · simp at h
    · rename_i columns hs
      obtain ⟨text, htext, hd⟩ := Outcome.bind_eq_ok.mp h
      rw [Outcome.pure_eq_ok] at hd
      subst hd
      exact ⟨(hcolumns columns).mp hs, rfl, Outcome.mapErr_eq_ok.mp htext⟩
  · rintro ⟨hs, hrows, htext⟩
    rw [(hcolumns d.columns).mpr hs]
    refine Outcome.bind_eq_ok.mpr ⟨_, Outcome.mapErr_eq_ok.mpr htext, ?_⟩
    rw [Outcome.pure_eq_ok, ← hrows]

theorem eval_show_ok {fs : Fs} {d : TableDescription} : («show» L P K db table).eval fs = .ok d ↔
    ∃ r k, TableRef.fromStr table = some r ∧ (Db.tableCommitment L db r).eval fs = .ok k ∧
      List.Forall₂ (Shows P) (P.columnMetadata k).entries d.columns ∧ d.numRows = L.numRows k ∧
        encodeCommitment L K k = .ok d.commitment := by
  have hshown : ∀ r, (do
      let commitments ← showLocked L db r
      Prog.ofOutcome (showAfter L P K r commitments) : Io TableError _).Reader := fun r =>
    (Db.reader_commitments L [r]).mapErr.bind fun _ => Prog.Reader.ofOutcome _
  have hone : ∀ r m, (showLocked L db r).eval fs = .ok m ↔ ∃ k, (Db.tableCommitment L db r).eval fs = .ok k ∧
      m = IndexMap.collect [(r, k)] := by
    intro r m
    rw [showLocked, Prog.eval_mapErr, Outcome.mapErr_eq_ok, Db.eval_commitments_ok]
    constructor
    · rintro ⟨ks, hks, rfl⟩
      obtain ⟨k, rest, hk, hrest, rfl⟩ := List.forall₂_cons_left_iff.mp hks
      rw [List.forall₂_nil_left_iff.mp hrest]
      exact ⟨k, hk, rfl⟩
    · rintro ⟨k, hk, rfl⟩
      exact ⟨[k], .cons hk .nil, rfl⟩
  rw [«show», (Prog.Reader.ofOption _ _).eval_bind_ok hshown]
  simp only [Db.eval_ofOption_ok]
  constructor
  · rintro ⟨r, hr, h⟩
    obtain ⟨m, hm, hafter⟩ := ((Db.reader_commitments L [r]).mapErr.eval_bind_ok fun _ =>
      Prog.Reader.ofOutcome _).mp h
    obtain ⟨k, hk, rfl⟩ := (hone r m).mp hm
    exact ⟨r, k, hr, hk, (showAfter_eq_ok (IndexMap.lookup_collect_one r k)).mp hafter⟩
  · rintro ⟨r, k, hr, hk, hd⟩
    exact ⟨r, hr, ((Db.reader_commitments L [r]).mapErr.eval_bind_ok fun _ => Prog.Reader.ofOutcome _).mpr
      ⟨_, (hone r _).mpr ⟨k, hk, rfl⟩, (showAfter_eq_ok (IndexMap.lookup_collect_one r k)).mpr hd⟩⟩

/-! ### Querying -/

section Query

variable {sql : Name} {response : QueryResult ω}

theorem queryBefore_eq_ok {tableRefs : List TableRef} : queryBefore P sql = .ok tableRefs ↔
    ∃ statement, P.parseSql sql = some [statement] ∧ P.tableRefs statement = some tableRefs := by
  rw [queryBefore, Outcome.mapErr_eq_ok, Prove.tableRefs, Outcome.bind_eq_ok]
  simp only [Outcome.ofOption_eq_ok]
  constructor
  · rintro ⟨statements, hparse, h⟩
    split at h
    · exact ⟨_, hparse, Outcome.ofOption_eq_ok.mp h⟩
    · simp at h
  · rintro ⟨statement, hparse, hrefs⟩
    exact ⟨_, hparse, Outcome.ofOption_eq_ok.mpr hrefs⟩

theorem proveOver_eq_ok {statement : P.Statement} {tables : IndexMap TableRef (RecordBatch ρ)} {proof : P.Proof}
    {fields : List ColumnField} : Prove.proveOver P statement tables setup = .ok (proof, fields) ↔
      ∃ schemas plan rest data, tables.entries.mapM (fun e => (P.columnsOf e.2.schema).map (e.1, ·)) = some schemas ∧
        P.plans [statement] (IndexMap.collect schemas).lookup = .ok (plan :: rest) ∧
        tables.entries.mapM (fun e => (P.tableData e.2 0).map (e.1, ·)) = some data ∧
        P.newProof plan (IndexMap.collect data) setup = .ok proof ∧ fields = P.resultFields plan := by
  rw [Prove.proveOver, Outcome.bind_eq_ok]
  simp only [Outcome.bind_eq_ok, Failure.toOutcome_eq_ok]
  constructor
  · rintro ⟨accessor, hs, plans, hplans, h⟩
    rw [Prove.schemaAccessor] at hs
    split at hs
    · rename_i schemas hschemas
      obtain rfl := Outcome.ok.inj hs
      split at h
      · simp at h
      · rename_i plan rest
        simp only [Outcome.bind_eq_ok, Outcome.ofOption_eq_ok, Failure.toOutcome_eq_ok, Outcome.pure_eq_ok,
          Prod.mk.injEq] at h
        obtain ⟨data, hdata, _, hproof, rfl, rfl⟩ := h
        exact ⟨schemas, plan, rest, data, hschemas, hplans, hdata, hproof, rfl⟩
    · simp at hs
  · rintro ⟨schemas, plan, rest, data, hschemas, hplans, hdata, hproof, rfl⟩
    refine ⟨IndexMap.collect schemas, by rw [Prove.schemaAccessor, hschemas], _, hplans, ?_⟩
    simp only [Outcome.bind_eq_ok, Outcome.ofOption_eq_ok, Failure.toOutcome_eq_ok, Outcome.pure_eq_ok]
    exact ⟨data, hdata, proof, hproof, rfl⟩

theorem prove_eq_ok {proved : P.Proof × List ColumnField} : Prove.prove L P db sql setup w = (.ok proved, w') ↔
    ∃ statement tableRefs tables, P.parseSql sql = some [statement] ∧ P.tableRefs statement = some tableRefs ∧
      Db.data L db tableRefs w = (.ok tables, w') ∧ Prove.proveOver P statement tables setup = .ok proved := by
  rw [Prove.prove, Prog.bind_eq_ok]
  constructor
  · rintro ⟨statements, w₁, hparsed, h⟩
    obtain ⟨hparse, rfl⟩ := Prog.ofOption_eq_ok.mp hparsed
    split at h
    · rename_i statement
      obtain ⟨tableRefs, w₂, hfound, hread⟩ := Prog.bind_eq_ok.mp h
      obtain ⟨hrefs, rfl⟩ := Prog.ofOption_eq_ok.mp hfound
      obtain ⟨tables, w₃, hdata, hlast⟩ := Prog.bind_eq_ok.mp hread
      obtain ⟨hover, rfl⟩ := Prog.ofOutcome_eq_ok.mp hlast
      exact ⟨statement, tableRefs, tables, hparse, hrefs, Prog.mapErr_eq_ok.mp hdata, hover⟩
    · simp at h
  · rintro ⟨statement, tableRefs, tables, hparse, hrefs, hdata, hover⟩
    exact ⟨_, w, Prog.ofOption_eq_ok.mpr ⟨hparse, rfl⟩, Prog.bind_eq_ok.mpr ⟨_, w,
      Prog.ofOption_eq_ok.mpr ⟨hrefs, rfl⟩, Prog.bind_eq_ok.mpr ⟨_, w', Prog.mapErr_eq_ok.mpr hdata,
        Prog.ofOutcome_eq_ok.mpr ⟨hover, rfl⟩⟩⟩⟩

theorem queryLocked_eq_ok {tableRefs : List TableRef} {proved : Proved L P} :
    queryLocked L P db setup sql tableRefs w = (.ok proved, w') ↔ ∃ w₁,
      Prove.prove L P db sql setup w = (.ok (proved.result, proved.fields), w₁) ∧
        Db.commitments L db tableRefs w₁ = (.ok proved.commitments, w') := by
  rw [queryLocked, Prog.bind_eq_ok]
  constructor
  · rintro ⟨⟨result, fields⟩, w₁, hprove, h⟩
    obtain ⟨commitments, w₂, hcommitments, hp⟩ := Prog.bind_eq_ok.mp h
    rw [Prog.pure_run, Prod.mk.injEq, Outcome.ok.injEq] at hp
    obtain ⟨rfl, rfl⟩ := hp
    exact ⟨w₁, Prog.mapErr_eq_ok.mp hprove, Prog.mapErr_eq_ok.mp hcommitments⟩
  · rintro ⟨w₁, hprove, hcommitments⟩
    exact ⟨_, w₁, Prog.mapErr_eq_ok.mpr hprove,
      Prog.bind_eq_ok.mpr ⟨_, w', Prog.mapErr_eq_ok.mpr hcommitments, rfl⟩⟩

/-- The proof and the rows of a response are those of `proof`, its columns typed as `fields` declares. -/
structure Presents (P : ProofSystem ρ κ σ) (K : Codecs ρ ω) (proof : P.Proof) (fields : List ColumnField)
    (coerced : OwnedTable P.Scalar P.Value) (batch : RecordBatch ρ) (response : QueryResult ω) : Prop where
  coerces : Prove.coerceScalars P (P.result proof) fields = .ok coerced
  recordBatch : P.recordBatch coerced = .ok batch
  rows : jsonRows K batch = .ok response.rows
  proof : ∃ bytes, P.serializeProof proof = some bytes ∧ response.proof = K.base64Encode bytes

theorem queryAfter_eq_ok {proved : Proved L P} : queryAfter L P K proved = .ok response ↔
    ∃ coerced batch tables, Presents P K proved.result proved.fields coerced batch response ∧
      List.Forall₂ (fun e t => t.1 = TableRef.toString e.1 ∧ queriedTable L K e.2 = .ok t.2)
        proved.commitments.entries tables ∧ response.tables = IndexMap.collect tables := by
  have htable : ∀ (e : TableRef × κ) (t : Name × QueriedTable), (do
      let table ← queriedTable L K e.2
      pure (e.1.toString, table) : Outcome DbError (Name × QueriedTable)) = .ok t ↔
        t.1 = e.1.toString ∧ queriedTable L K e.2 = .ok t.2 := by
    intro e t
    rw [Outcome.bind_eq_ok]
    simp only [Outcome.pure_eq_ok]
    constructor
    · rintro ⟨table, htable, rfl⟩
      exact ⟨rfl, htable⟩
    · rintro ⟨hkey, htable⟩
      exact ⟨_, htable, Prod.ext hkey.symm rfl⟩
  rw [queryAfter, Outcome.bind_eq_ok]
  constructor
  · rintro ⟨coerced, hcoerce, h⟩
    split at h
    · rename_i batch hbatch
      simp only [Outcome.bind_eq_ok, Outcome.mapErr_eq_ok, Outcome.ofOption_eq_ok, Outcome.pure_eq_ok,
        outcome_mapM_eq_ok_iff, htable] at h
      obtain ⟨_, rfl, rows, hrows, bytes, hbytes, tables, htables, rfl⟩ := h
      exact ⟨coerced, batch, tables, ⟨Outcome.mapErr_eq_ok.mp hcoerce, hbatch, hrows, bytes, hbytes, rfl⟩, htables, rfl⟩
    · simp at h
    · simp at h
  · rintro ⟨coerced, batch, tables, ⟨hcoerce, hbatch, hrows, bytes, hbytes, hproof⟩, htables, hresponse⟩
    refine ⟨coerced, Outcome.mapErr_eq_ok.mpr hcoerce, ?_⟩
    rw [hbatch]
    simp only [Outcome.bind_eq_ok, Outcome.mapErr_eq_ok, Outcome.ofOption_eq_ok, Outcome.pure_eq_ok,
      outcome_mapM_eq_ok_iff, htable]
    refine ⟨batch, rfl, _, hrows, bytes, hbytes, tables, htables, ?_⟩
    rw [← hproof, ← hresponse]

theorem query_eq_ok : query L P K db setup sql w = (.ok response, w') ↔ ∃ tableRefs proved,
    queryBefore P sql = .ok tableRefs ∧ queryLocked L P db setup sql tableRefs w = (.ok proved, w') ∧
      queryAfter L P K proved = .ok response := by
  rw [query, Prog.bind_eq_ok]
  constructor
  · rintro ⟨tableRefs, w₁, hbefore, h⟩
    obtain ⟨hrefs, rfl⟩ := Prog.ofOutcome_eq_ok.mp hbefore
    obtain ⟨proved, w₂, hlocked, h⟩ := Prog.bind_eq_ok.mp h
    obtain ⟨hafter, rfl⟩ := Prog.ofOutcome_eq_ok.mp h
    exact ⟨tableRefs, proved, hrefs, hlocked, hafter⟩
  · rintro ⟨tableRefs, proved, hbefore, hlocked, hafter⟩
    exact ⟨tableRefs, w, Prog.ofOutcome_eq_ok.mpr ⟨hbefore, rfl⟩, Prog.bind_eq_ok.mpr
      ⟨proved, w', hlocked, Prog.ofOutcome_eq_ok.mpr ⟨hafter, rfl⟩⟩⟩

/-- What is read for one table, what planning and proving make of it, and what a response says of it. -/
structure Reports (L : Libs ρ κ σ) (P : ProofSystem ρ κ σ) (K : Codecs ρ ω) (db : Db) (fs : Fs)
    (schemas : IndexMap TableRef (IndexMap Name ColumnType)) (data : IndexMap TableRef P.Data)
    (tables : IndexMap Name QueriedTable) (r : TableRef) (batch : RecordBatch ρ) (commitment : κ) : Prop where
  reads : (Db.tableData L db r).eval fs = .ok batch
  commits : (Db.tableCommitment L db r).eval fs = .ok commitment
  columns : ∃ columns, P.columnsOf batch.schema = some columns ∧ schemas.lookup r = some columns
  data : ∃ d, P.tableData batch 0 = some d ∧ data.lookup r = some d
  table : ∃ table, queriedTable L K commitment = .ok table ∧ tables.lookup r.toString = some table

/-- **What an answered query has done**: it read the tables its statement references and no others, all in one
state; planned and proved over what it read; and reports the commitments it read with them. -/
theorem query_answer (hP : P.Lawful L) (hl : Lossless w.fates)
    (h : query L P K db setup sql w = (.ok response, w')) :
    ∃ statement tableRefs schemas data plan rest proof coerced batch, P.parseSql sql = some [statement] ∧
      P.tableRefs statement = some tableRefs ∧
      (∀ r ∈ tableRefs, ∃ b k, Reports L P K db w.state schemas data response.tables r b k) ∧
      response.tables.keys = tableRefs.map TableRef.toString ∧
      P.plans [statement] schemas.lookup = .ok (plan :: rest) ∧ P.newProof plan data setup = .ok proof ∧
      Presents P K proof (P.resultFields plan) coerced batch response := by
  obtain ⟨tableRefs, proved, hbefore, hlocked, hafter⟩ := query_eq_ok.mp h
  obtain ⟨statement, hparse, hrefs⟩ := queryBefore_eq_ok.mp hbefore
  obtain ⟨w₁, hprove, hcommitments⟩ := queryLocked_eq_ok.mp hlocked
  obtain ⟨coerced, batch, tables, hpresents, htables, hresponse⟩ := queryAfter_eq_ok.mp hafter
  obtain ⟨statement', tableRefs', read, hparse', hrefs', hdata, hover⟩ := prove_eq_ok.mp hprove
  obtain rfl : statement = statement' := by simpa [hparse] using hparse'
  obtain rfl : tableRefs = tableRefs' := by simpa [hrefs] using hrefs'
  obtain ⟨schemas, plan, rest, data, hschemas, hplans, hcolumns, hproof, hfields⟩ := proveOver_eq_ok.mp hover
  have hnodup := hP.tableRefs_nodup _ _ hrefs
  -- both reads happen in the state the query starts in
  have hreader : (Db.data L db tableRefs).Reader := Db.reader_data L tableRefs
  have hstate : w₁.state = w.state := by
    have := hreader.state w
    rwa [hdata] at this
  have hl₁ : Lossless w₁.fates := by
    have := hreader.lossless w hl
    rwa [hdata] at this
  obtain ⟨bs, hbs, rfl⟩ := (Db.eval_data_ok L).mp (hreader.honest w _ hl (by rw [hdata]))
  obtain ⟨ks, hks, hread⟩ := (Db.eval_commitments_ok L).mp
    ((Db.reader_commitments L tableRefs).honest w₁ _ hl₁ (by rw [hcommitments]))
  rw [hstate] at hks
  have hentries : ∀ {α : Type} {vs : List α}, tableRefs.length = vs.length →
      (IndexMap.collect (tableRefs.zip vs)).entries = tableRefs.zip vs := fun hlen =>
    IndexMap.entries_collect (by rwa [List.map_fst_zip hlen.le])
  have hkeyed : ∀ {γ : Type} (g : RecordBatch ρ → Option γ) {out : List (TableRef × γ)},
      (IndexMap.collect (tableRefs.zip bs)).entries.mapM (fun e => (g e.2).map (e.1, ·)) = some out →
      ∃ vs, List.Forall₂ (fun r v => ∃ b, (Db.tableData L db r).eval w.state = .ok b ∧ g b = some v) tableRefs vs ∧
        out = (tableRefs.map id).zip vs := by
    intro γ g out hout
    rw [hentries hbs.length_eq] at hout
    apply forall₂_zip id (fun b v => g b = some v) hbs
    apply (mapM_eq_some_iff.mp hout).imp
    intro e o ho
    obtain ⟨v, hv, rfl⟩ := Option.map_eq_some_iff.mp ho
    exact ⟨rfl, hv⟩
  obtain ⟨cols, hcols, rfl⟩ := hkeyed (fun b => P.columnsOf b.schema) hschemas
  obtain ⟨ds, hds, rfl⟩ := hkeyed (fun b => P.tableData b 0) hcolumns
  rw [hread, hentries hks.length_eq] at htables
  obtain ⟨ts, hts, rfl⟩ := forall₂_zip TableRef.toString (fun k t => queriedTable L K k = .ok t) hks htables
  have hnames : (tableRefs.map TableRef.toString).Nodup := by
    apply List.Nodup.map_on _ hnodup
    intro r hr r' hr' heq
    exact TableRef.toString_injective (hP.tableRefs_parsed _ _ hrefs r hr) (hP.tableRefs_parsed _ _ hrefs r' hr') heq
  refine ⟨statement, tableRefs, _, _, plan, rest, proved.result, coerced, batch, hparse, hrefs, fun r hr => ?_, ?_,
    hplans, hproof, hfields ▸ hpresents⟩
  · have hid : (tableRefs.map id).Nodup := by rwa [List.map_id]
    obtain ⟨columns, hl1, b, hb, hcolumns'⟩ := IndexMap.lookup_collect_zip hid hcols hr
    obtain ⟨d, hl2, b', hb', hd⟩ := IndexMap.lookup_collect_zip hid hds hr
    obtain ⟨t, hl3, k, hk, ht⟩ := IndexMap.lookup_collect_zip hnames hts hr
    obtain rfl : b = b' := Outcome.ok.inj (hb.symm.trans hb')
    rw [hresponse]
    exact ⟨b, k, hb, hk, ⟨columns, hcolumns', hl1⟩, ⟨d, hd, hl2⟩, t, ht, hl3⟩
  · have hlen : (tableRefs.map TableRef.toString).length = ts.length := by rw [List.length_map, hts.length_eq]
    rw [hresponse, IndexMap.keys, IndexMap.entries_collect, List.map_fst_zip hlen.le]
    rwa [List.map_fst_zip hlen.le]

end Query

end Api

end SxtEnterprise
