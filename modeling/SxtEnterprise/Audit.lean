import SxtEnterprise.AllOrNothing
import SxtEnterprise.Coercion
import SxtEnterprise.Handlers
import SxtEnterprise.Pinned

/-!
# Every answer can be checked

The server goes from rows to a schema, a plan, a proof and coerced columns; the auditor from the keys of the
response to commitment files, the columns these report, a plan and the verified table.  In a database whose
commitments are those of its rows (`Committed`) the two meet: the same tables, the same columns in the same order,
so the same plan; and coercion types raw results as the verifier does (`typed_of_coerced`).  So what `query`
answers, `verify` accepts, and the table it prints is the one the rows were made of (`auditor_can_check`).  Against
a directory that pins nothing the same command accepts anybody's tables instead (`unpinned_prints_anything`).
-/

namespace SxtEnterprise

open NumberedNames Paths FaultyRun

variable {ρ κ σ ω : Type} {L : Libs ρ κ σ} {P : ProofSystem ρ κ σ} {K : Codecs ρ ω} {db : Db}

/-! ### Coercion agrees with the verifier's typing -/

namespace Prove

/-- **One column**: what coercion leaves without raw field elements, it typed as declared. -/
theorem typed_of_coerceColumn {type : ColumnType} {c c' : OwnedColumn P.Scalar P.Value}
    (h : coerceColumn P c type = .ok c') (hraw : ¬ c'.IsScalar) : P.Typed type c c' := by
  cases c with
  | scalar values =>
    change coerceScalarColumn P values type = .ok c' at h
    cases type with
    | uint8 =>
      obtain ⟨ns, hns, rfl⟩ := map_eq_ok.mp h
      exact .uint8 (convert_eq_ok.mp hns)
    | tinyInt =>
      obtain ⟨ns, hns, rfl⟩ := map_eq_ok.mp h
      exact .tinyInt (convert_eq_ok.mp hns)
    | smallInt =>
      obtain ⟨ns, hns, rfl⟩ := map_eq_ok.mp h
      exact .smallInt (convert_eq_ok.mp hns)
    | int =>
      obtain ⟨ns, hns, rfl⟩ := map_eq_ok.mp h
      exact .int (convert_eq_ok.mp hns)
    | bigInt =>
      obtain ⟨ns, hns, rfl⟩ := map_eq_ok.mp h
      exact .bigInt (convert_eq_ok.mp hns)
    | int128 =>
      obtain ⟨ns, hns, rfl⟩ := map_eq_ok.mp h
      exact .int128 (convert_eq_ok.mp hns)
    | decimal75 precision scale =>
      obtain rfl := Except.ok.inj h
      exact .decimal75
    | other name =>
      obtain rfl := Except.ok.inj h
      exact absurd trivial hraw
  | _ =>
    obtain rfl := Except.ok.inj h
    exact .kept hraw

/-- **A coerced table without raw field elements** is the table typed as declared. -/
theorem typed_of_coerced {t t' : OwnedTable P.Scalar P.Value} {fields : List ColumnField}
    (hlen : fields.length = t.columns.entries.length) (h : coerceScalars P t fields = .ok t')
    (hraw : ∀ c ∈ t'.columns.entries, ¬ c.2.IsScalar) : P.TypedTable fields t t' := by
  obtain ⟨hkeys, hall⟩ := coerceScalars_ok hlen h
  refine ⟨hkeys, fun i field c c' hfield hc hc' => ?_⟩
  have hpair : (t.columns.entries.zip fields)[i]? = some (c, field) :=
    List.getElem?_zip_eq_some.mpr ⟨hc, hfield⟩
  have hmem : ((c, field), c') ∈ (t.columns.entries.zip fields).zip t'.columns.entries :=
    List.mem_of_getElem? (List.getElem?_zip_eq_some.mpr ⟨hpair, hc'⟩)
  have hone := (List.forall₂_iff_zip.mp hall).2 hmem
  exact typed_of_coerceColumn hone.2 (hraw c' (List.mem_of_getElem? hc'))

end Prove

/-! ### What the auditor gathers -/

/-- Every commitment is that of the rows read for its table. -/
def Committed (L : Libs ρ κ σ) (db : Db) (fs : Fs) : Prop :=
  ∀ (r : TableRef) b k, r.Parsed → (Db.tableData L db r).eval fs = .ok b →
    (Db.tableCommitment L db r).eval fs = .ok k → L.Commits k b

/-- **What is read of a table with a log** is the log: its files one after the other, and the commitment of its
content. -/
theorem read_of_inv (hL : L.Lawful) {fs : Fs} {cat : Loc Name → Option (TableLog ρ)}
    (h : Db.Inv L (fun _ => True) fs cat) {r : TableRef} {b : RecordBatch ρ} {k : κ} (hr : r.Parsed)
    (hb : (Db.tableData L db r).eval fs = .ok b) (hk : (Db.tableCommitment L db r).eval fs = .ok k) :
    ∃ e, cat (db.tableDir r).loc = some e ∧ e.readBack = b ∧ L.Commits k e.content ∧ e.schema ≠ [] ∧
      (Db.parquetNames fs (db.tableDir r).loc).length = e.files.length := by
  have ht := Db.tidy_of_data hr hb
  obtain ⟨hpres, hat⟩ := (Db.eval_tableCommitment_ok hr).mp hk
  have hnul := Db.noNul_of_present hpres
  rcases hcat : cat (db.tableDir r).loc with _ | e
  · -- a directory without a log has no batch file to read a schema from, or no commitment
    exfalso
    obtain ⟨-, -, s, bs, ⟨c, hc, -, bytes, hfile, -⟩, -⟩ := (Db.eval_tableData_ok hr).mp hb
    rcases h.unlogged _ trivial hcat with hno | hno
    · exact hno c bytes (Db.mem_parquetNames.mp (List.mem_of_head? hc)).1 hfile
    · exact hno k hat
  · obtain ⟨idx, hs⟩ := h.stored _ e trivial hcat
    obtain ⟨k', hk', hc⟩ := hs.commitment
    obtain rfl : k' = k := (hk'.at hL).unique hat
    have hcol := hs.columns_of_data hL hr hb
    refine ⟨e, rfl, Outcome.ok.inj ((hs.eval_tableData hL hr hnul hcol ht).symm.trans hb), hc, hcol, ?_⟩
    rw [hs.names_eq ht, List.length_map, TableLog.length_readOrder]

/-- **Logs commit to what is read**, as long as the batch files of every table are read in the order they were
inserted. -/
theorem committed_of_inv (hL : L.Lawful) {fs : Fs} {cat : Loc Name → Option (TableLog ρ)}
    (h : Db.Inv L (fun _ => True) fs cat)
    (hfew : ∀ r : TableRef, (Db.parquetNames fs (db.tableDir r).loc).length ≤ 10 ^ 6) : Committed L db fs := by
  intro r b k hr hb hk
  obtain ⟨e, -, rfl, hc, -, hlen⟩ := read_of_inv hL h hr hb hk
  rwa [e.readBack_eq (hlen ▸ hfew r)]

/-- Opening a database logs nothing. -/
theorem unlogged_openAt {dir : Loc Name} {fs₀ : Fs} {fates : List Fate} {w : World Fs (Loc Name)}
    (hl : Lossless fates) (hempty : ∀ p, Db.Unlogged L fs₀ p) (hopen : Db.openAt dir ⟨fs₀, fates, []⟩ = (.ok db, w))
    (p : Loc Name) : Db.Unlogged L w.state p := by
  obtain ⟨_, w₁, hmake, hpure⟩ := Prog.bind_eq_ok.mp hopen
  rw [Prog.pure_run, Prod.mk.injEq] at hpure
  obtain ⟨-, rfl⟩ := hpure
  obtain ⟨-, -, -, -, rfl⟩ := (Disk.createDirAll_ok (w := ⟨fs₀, fates, []⟩) hl).mp hmake
  exact (hempty p).frame (Db.Kept.mkdirs _ _ _ _)

/-- A file saved under another name leaves every commitment where it was. -/
theorem kept_of_saved {fs fs' : Fs} {p : Loc Name} {c : Name} {bytes : Bytes} (h : fs.Sets p c bytes fs')
    (hc : c ≠ Db.commitName) {r : TableRef} {k : κ} (hr : r.Parsed)
    (hk : (Db.tableCommitment L db r).eval fs = .ok k) : (Db.tableCommitment L db r).eval fs' = .ok k := by
  obtain ⟨hpres, file, n, hfile, hd⟩ := (Db.eval_tableCommitment_ok hr).mp hk
  have hsame : fs'.lookup ((db.tableDir r).loc ++ [Db.commitName]) = some (.file file) := by
    rw [h.ne (by simpa using fun _ => hc.symm)]
    exact hfile
  have hdir : fs'.lookup (db.tableDir r).loc = some .dir := fs'.lookup_parent (by rw [hsame]; simp)
  exact (Db.eval_tableCommitment_ok hr).mpr
    ⟨Db.present_of_dir hr (Db.noNul_of_present hpres) hdir, file, n, hsame, hd⟩

/-- The commitment the database reads for `r` is the one its directory pins for it. -/
theorem pinned_of_tableCommitment {fs : Fs} {r : TableRef} {k : κ} (hr : r.Parsed)
    (h : (Db.tableCommitment L db r).eval fs = .ok k) :
    (Cli.pinnedCommitment L (Path.ofLoc db.dir) r.toString).eval fs = .ok (r, k) := by
  obtain ⟨hpres, hk⟩ := (Db.eval_tableCommitment_ok hr).mp h
  have hread := (Db.eval_readCommitment_dir L (Db.tableDir_straight db hr) (Db.noNul_of_present hpres)).mpr hk
  obtain ⟨hnul, bytes, n, hnode, hd⟩ := (Db.eval_readCommitment_ok L).mp hread
  exact eval_pinnedCommitment_ok.mpr ⟨TableRef.fromStr_toString hr, hnul, bytes, n, hnode, hd⟩

/-- A directory that is there pins what the database read in `fs`. -/
def Pins (L : Libs ρ κ σ) (db : Db) (fs : Fs) (dir : Path) (fs' : Fs) : Prop :=
  (Disk.pathExists dir : Io CliError Bool).eval fs' = .ok true → ∀ r k, r.Parsed →
    (Db.tableCommitment L db r).eval fs = .ok k → (Cli.pinnedCommitment L dir r.toString).eval fs' = .ok (r, k)

/-- The database's own does, as long as its commitments are kept. -/
theorem pins_of_kept {fs fs' : Fs} (hkept : ∀ r k, r.Parsed → (Db.tableCommitment L db r).eval fs = .ok k →
    (Db.tableCommitment L db r).eval fs' = .ok k) : Pins L db fs (Path.ofLoc db.dir) fs' := fun _ r k hr hk =>
  pinned_of_tableCommitment hr (hkept r k hr hk)

/-- A commitment a response reports is decoded to the one it was made from. -/
theorem reported_of_queriedTable (hL : L.Lawful) (hK : K.Lawful P) {r : TableRef} {k : κ} {table : QueriedTable}
    (hr : r.Parsed) (h : Api.queriedTable L K k = .ok table) :
    Cli.reportedCommitment L K (r.toString, table) = .ok (r, k) := by
  obtain ⟨encoded, hencoded, htable⟩ := Outcome.bind_eq_ok.mp h
  obtain ⟨bytes, hbytes, rfl⟩ := Api.encodeCommitment_eq_ok.mp hencoded
  obtain rfl := Outcome.pure_eq_ok.mp htable
  rw [Cli.reportedCommitment, Cli.decodeCommitment, Cli.decodeBase64, TableRef.fromStr_toString hr, hK.base64]
  show (do
    let commitment ← (do
      let read ← Outcome.ofOption CliError.decode (L.deserialize bytes)
      pure read.1 : Outcome CliError κ)
    pure (r, commitment) : Outcome CliError _) = _
  rw [hL.deserialize_serialize k bytes hbytes]
  rfl

/-- The proof of a response is decoded to the one it was made with. -/
theorem decodeProof_of_presents (hP : P.Lawful L) (hK : K.Lawful P) {proof : P.Proof} {fields : List ColumnField}
    {coerced : OwnedTable P.Scalar P.Value} {batch : RecordBatch ρ} {response : QueryResult ω}
    (h : Api.Presents P K proof fields coerced batch response) : Cli.decodeProof P K response.proof = .ok proof := by
  obtain ⟨bytes, hbytes, hencoded⟩ := h.proof
  rw [Cli.decodeProof, Cli.decodeBase64, hencoded, hK.base64]
  show (do
    let read ← Outcome.ofOption CliError.decode (P.deserializeProof bytes)
    pure read.1 : Outcome CliError P.Proof) = _
  rw [hP.deserializeProof_serializeProof proof bytes hbytes]
  rfl

/-- **The commitments of a response**, whatever order its tables are gathered in and wherever they are taken from:
those the database read. -/
theorem gathers_commitments (hL : L.Lawful) (hK : K.Lawful P) {fs fs' : Fs} {dir : Path} (hpins : Pins L db fs dir fs')
    {tables : List (Name × QueriedTable)}
    (h : ∀ e ∈ tables, ∃ r k, r.Parsed ∧ e.1 = r.toString ∧ (Db.tableCommitment L db r).eval fs = .ok k ∧
      Api.queriedTable L K k = .ok e.2) :
    ∃ commitments, (Cli.gatherCommitments L K dir tables).eval fs' = .ok commitments ∧
      List.Forall₂ (fun e rc => rc.1.Parsed ∧ e.1 = rc.1.toString ∧ (Db.tableCommitment L db rc.1).eval fs = .ok rc.2)
        tables commitments := by
  obtain ⟨commitments, hall⟩ := exists_forall₂ (l := tables)
    (R := fun (e : Name × QueriedTable) (rc : TableRef × κ) => rc.1.Parsed ∧ e.1 = rc.1.toString ∧
      (Db.tableCommitment L db rc.1).eval fs = .ok rc.2 ∧ Api.queriedTable L K rc.2 = .ok e.2)
    fun e he => by
      obtain ⟨r, k, hr, hkey, hk, ht⟩ := h e he
      exact ⟨(r, k), hr, hkey, hk, ht⟩
  refine ⟨commitments, ?_, hall.imp fun e rc he => ⟨he.1, he.2.1, he.2.2.1⟩⟩
  rw [Cli.eval_gatherCommitments]
  split
  · rename_i hpresent
    apply hall.imp
    rintro e ⟨r, k⟩ ⟨hr, hkey, hk, -⟩
    rw [hkey]
    exact hpins (by rw [Disk.eval_pathExists, hpresent]) r k hr hk
  · apply hall.imp
    rintro ⟨key, table⟩ ⟨r, k⟩ ⟨hr, hkey, -, ht⟩
    obtain rfl : key = r.toString := hkey
    exact reported_of_queriedTable hL hK hr ht

/-! ### The auditor's run -/

section Audit

variable {sql : Name} {setup : σ} {response : QueryResult ω} {w w' : World Fs (Loc Name)} {fs' : Fs}

/-- **Verification of an answer**: with commitments that are those of the rows, the statement has the plan it was
proved for, and the proof verifies to the coerced table. -/
theorem verifies_answer (hP : P.Lawful L) (hl : Lossless w.fates) (hcommitted : Committed L db w.state)
    (h : Api.query L P K db setup sql w = (.ok response, w')) {commitments : IndexMap TableRef κ}
    (hlookup : ∀ r k, r.toString ∈ response.tables.keys → r.Parsed →
      (Db.tableCommitment L db r).eval w.state = .ok k → commitments.lookup r = some k) :
    ∃ proof coerced batch fields, Verify.verify P sql commitments proof = .ok batch ∧
      Api.Presents P K proof fields coerced batch response := by
  obtain ⟨statement, refs, schemas, data, plan, rest, proof, coerced, batch, hparse, hrefs, hreports, hkeys, hplans,
    hproof, hpresents⟩ := Api.query_answer hP hl h
  refine ⟨proof, coerced, batch, _, ?_, hpresents⟩
  have htable : ∀ r ∈ refs, ∃ b k d, L.Commits k b ∧ commitments.lookup r = some k ∧
      schemas.lookup r = some (P.columnMetadata k) ∧ P.tableData b 0 = some d ∧ data.lookup r = some d := by
    intro r hr
    obtain ⟨b, k, hreads, hk, ⟨columns, hcolumns, hschema⟩, ⟨d, hd, hdata⟩, -⟩ := hreports r hr
    have hrp := hP.tableRefs_parsed _ _ hrefs r hr
    have hc := hcommitted r b k hrp hreads hk
    have hkey : r.toString ∈ response.tables.keys := by
      rw [hkeys]
      exact List.mem_map_of_mem hr
    refine ⟨b, k, d, hc, hlookup r k hkey hrp hk, ?_, hd, hdata⟩
    rw [hschema, ← hcolumns, hP.columnMetadata_commits b k hc]
  have haccessor : ∀ r ∈ refs, schemas.lookup r = Verify.commitmentAccessor P commitments r := by
    intro r hr
    obtain ⟨b, k, d, -, hk, hschema, -⟩ := htable r hr
    rw [hschema, Verify.commitmentAccessor, hk]
    rfl
  have hplans' : P.plans [statement] (Verify.commitmentAccessor P commitments) = .ok (plan :: rest) := by
    rw [← hplans]
    exact (hP.plans_congr statement refs _ _ hrefs haccessor).symm
  have hlen : (P.resultFields plan).length = (P.result proof).columns.entries.length := by
    have := congrArg List.length (hP.result_names _ _ _ _ hproof)
    simpa [IndexMap.keys] using this.symm
  have htyped : P.TypedTable (P.resultFields plan) (P.result proof) coerced :=
    Prove.typed_of_coerced hlen hpresents.coerces (hP.recordBatch_scalar _ _ hpresents.recordBatch)
  apply (Verify.verify_eq_ok P).mpr
  refine ⟨statement, refs, plan, rest, coerced, hparse, hrefs, fun r hr => ?_, hplans', ?_, hpresents.recordBatch⟩
  · obtain ⟨b, k, d, -, hk, -⟩ := htable r hr
    rw [IndexMap.mem_keys_iff, hk]
    rfl
  · apply hP.complete statement refs _ plan rest commitments data setup proof coerced hrefs hplans' _ hproof htyped
    intro r hr
    obtain ⟨b, k, d, hc, hk, hschema, hd, hdata⟩ := htable r hr
    exact ⟨b, d, k, hdata, hd, hk, by rw [← haccessor r hr, hschema], hc⟩

/-- **An answer is accepted** with what it was made with: a response saved to a file, checked against a directory that
pins what the database read or against none. -/
theorem accepts_answer (hL : L.Lawful) (hP : P.Lawful L) (hK : K.Lawful P) (hl : Lossless w.fates)
    (hcommitted : Committed L db w.state) (h : Api.query L P K db setup sql w = (.ok response, w'))
    {dir : Path} (hpins : Pins L db w.state dir fs') {responsePath : Path} (hnul : responsePath.hasNul = false)
    (hfile : node fs' responsePath = some (.file (K.writeResponse response)))
    {order : List (Name × QueriedTable) → List (Name × QueriedTable)} (horder : ∀ tables, (order tables).Perm tables)
    (home : Path) :
    ∃ parsed commitments proof batch text, K.parseResponse (K.writeResponse response) = some parsed ∧
      Cli.Verifies L P K order dir sql fs' parsed commitments proof batch text ∧
      Api.jsonRows K batch = .ok response.rows ∧
      (Cli.verifyCommand L P K order home sql responsePath (some dir)).eval fs' = .ok text := by
  obtain ⟨parsed, hparsed, hsame, hperm⟩ := hK.response response
  obtain ⟨statement, refs, schemas, data, -, -, -, -, -, hparse, hrefs, hreports, hkeys, -⟩ := Api.query_answer hP hl h
  have hentry : ∀ e, e ∈ order parsed.tables.entries ↔ e ∈ response.tables.entries := fun e =>
    ((horder _).trans hperm).mem_iff
  -- every table of the response has the commitment the database read
  have htables : ∀ e ∈ order parsed.tables.entries, ∃ r k, r.Parsed ∧ e.1 = r.toString ∧
      (Db.tableCommitment L db r).eval w.state = .ok k ∧ Api.queriedTable L K k = .ok e.2 := by
    rintro ⟨key, table⟩ he
    rw [hentry] at he
    have hkey : key ∈ refs.map TableRef.toString := by
      rw [← hkeys]
      exact List.mem_map_of_mem he
    obtain ⟨r, hr, rfl⟩ := List.mem_map.mp hkey
    obtain ⟨b, k, -, hk, -, -, table', ht, hlookup⟩ := hreports r hr
    obtain rfl : table = table' := by
      rw [IndexMap.mem_entries_iff] at he
      exact Option.some.inj (he.symm.trans hlookup)
    exact ⟨r, k, hP.tableRefs_parsed _ _ hrefs r hr, rfl, hk, ht⟩
  obtain ⟨commitments, hgather, hall⟩ := gathers_commitments hL hK hpins htables
  have hlookup : ∀ r k, r.toString ∈ response.tables.keys → r.Parsed →
      (Db.tableCommitment L db r).eval w.state = .ok k → (IndexMap.collect commitments).lookup r = some k := by
    intro r k hkey hr hk
    have hfun : ∀ k', (r, k') ∈ commitments → k' = k := by
      intro k' hk'
      obtain ⟨e, -, he⟩ := exists_of_forall₂_right hall hk'
      exact Outcome.ok.inj (he.2.2.symm.trans hk)
    rw [IndexMap.lookup_collect hfun, if_pos]
    obtain ⟨e, he, heq⟩ := List.mem_map.mp hkey
    obtain ⟨rc, hrc, hrcp, hrckey, -⟩ := exists_of_forall₂_left hall ((hentry e).mpr he)
    refine List.mem_map.mpr ⟨rc, hrc, ?_⟩
    exact TableRef.toString_injective hrcp hr (by rw [← hrckey, heq])
  obtain ⟨proof, coerced, batch, fields, hverify, hpresents⟩ := verifies_answer hP hl hcommitted h hlookup
  obtain ⟨text, htext⟩ := hK.display _ _ hpresents.recordBatch
  have hproof : Cli.decodeProof P K parsed.proof = .ok proof := by
    rw [hsame]
    exact decodeProof_of_presents hP hK hpresents
  have hverifies : Cli.Verifies L P K order dir sql fs' parsed commitments proof batch text :=
    ⟨hgather, hproof, hverify, htext⟩
  exact ⟨parsed, commitments, proof, batch, text, hparsed, hverifies, hpresents.rows,
    Cli.eval_verifyCommand_ok.mpr ⟨_, parsed, commitments, proof, batch, ⟨hnul, hfile⟩, hparsed, hverifies⟩⟩

/-- **Whatever the server answers, the auditor can check**: a response saved to a file is accepted against the
database's directory, and what is verified and printed is the table its rows were made of. -/
theorem auditor_can_check (hL : L.Lawful) (hP : P.Lawful L) (hK : K.Lawful P) (hl : Lossless w.fates)
    (hcommitted : Committed L db w.state) (h : Api.query L P K db setup sql w = (.ok response, w'))
    (hkept : ∀ r k, r.Parsed → (Db.tableCommitment L db r).eval w.state = .ok k →
      (Db.tableCommitment L db r).eval fs' = .ok k)
    {responsePath : Path} (hnul : responsePath.hasNul = false)
    (hfile : node fs' responsePath = some (.file (K.writeResponse response)))
    {order : List (Name × QueriedTable) → List (Name × QueriedTable)} (horder : ∀ tables, (order tables).Perm tables)
    (home : Path) :
    ∃ parsed commitments proof batch text, K.parseResponse (K.writeResponse response) = some parsed ∧
      Cli.Verifies L P K order (Path.ofLoc db.dir) sql fs' parsed commitments proof batch text ∧
      Api.jsonRows K batch = .ok response.rows ∧
      (Cli.verifyCommand L P K order home sql responsePath (some (Path.ofLoc db.dir))).eval fs' = .ok text := by
  exact accepts_answer hL hP hK hl hcommitted h (pins_of_kept hkept) hnul hfile horder home

/-- **Without a directory, the auditor checks a server against itself**: whatever data a server makes up and commits to
itself, its answer is accepted where there is no directory to pin commitments, and its table is what is printed. -/
theorem unpinned_prints_anything (hL : L.Lawful) (hP : P.Lawful L) (hK : K.Lawful P) (hl : Lossless w.fates)
    (hcommitted : Committed L db w.state) (h : Api.query L P K db setup sql w = (.ok response, w'))
    {dir : Path} (habsent : node fs' dir = none) {responsePath : Path} (hnul : responsePath.hasNul = false)
    (hfile : node fs' responsePath = some (.file (K.writeResponse response)))
    {order : List (Name × QueriedTable) → List (Name × QueriedTable)} (horder : ∀ tables, (order tables).Perm tables)
    (home : Path) :
    ∃ batch text, Api.jsonRows K batch = .ok response.rows ∧ K.prettyFormat batch = some text ∧
      (Cli.verifyCommand L P K order home sql responsePath (some dir)).eval fs' = .ok text := by
  have hpins : Pins L db w.state dir fs' := fun hpresent => by
    rw [Disk.eval_pathExists, habsent] at hpresent
    simp at hpresent
  obtain ⟨_, _, _, batch, text, -, hverifies, hrows, htext⟩ :=
    accepts_answer hL hP hK hl hcommitted h hpins hnul hfile horder home
  exact ⟨batch, text, hrows, hverifies.prints, htext⟩

end Audit

section Sample

open Db (Call Event)
open SampleLibs (ids home people)
open SampleService

theorem unlogged_sampleStart (p : Loc Name) : Db.Unlogged libs Db.sampleStart p := by
  have hopen : Db.openAt home ⟨FileTree.empty, [], []⟩ = (.ok ⟨home⟩, ⟨Db.sampleStart, [], _⟩) := rfl
  apply unlogged_openAt Lossless.nil (fun q => Or.inl ?_) hopen
  intro c bytes _ h
  rw [FileTree.lookup_empty (by simp)] at h
  simp at h

/-- A table of three rows. -/
def threeRows : List (Event UInt8 ℕ) × Fs := Db.play libs ⟨home⟩ Db.sampleStart
  [(.createTable people ids 9, []), (.insert people ⟨ids, [1, 2]⟩ 9, []), (.insert people ⟨ids, [3]⟩ 9, [])]

theorem committed_threeRows : Committed libs ⟨home⟩ threeRows.2 := by
  have hok : ∀ e ∈ threeRows.1, e.outcome = .ok () := by decide +kernel
  have hrun : Runs (Db.CleanStep libs ⟨home⟩) Db.sampleStart threeRows.1 threeRows.2 :=
    (Db.runs_play libs ⟨home⟩ (by simp [Lossless]) _).imp fun _ e _ he hs =>
      ⟨hs, fun _ _ _ _ ho => absurd (hok e he) ho⟩
  obtain ⟨cat, hinv, -⟩ := Db.Tallied.run libs_lawful unlogged_sampleStart hrun (by decide +kernel)
  have hnodes : threeRows.2.nodes.keys.length ≤ 10 ^ 6 := by decide +kernel
  exact committed_of_inv libs_lawful hinv fun r => (Db.length_parquetNames_le_nodes _ _).trans hnodes

theorem threeRows_answered : ∃ w', Api.query libs proofs codecs ⟨home⟩ 9 people.toString ⟨threeRows.2, [], []⟩ =
    (.ok (answerFor ⟨ids, [1, 2, 3]⟩), w') := by
  have hok : (Api.query libs proofs codecs ⟨home⟩ 9 people.toString ⟨threeRows.2, [], []⟩).1 =
    .ok (answerFor ⟨ids, [1, 2, 3]⟩) := by decide +kernel
  rcases hrun : Api.query libs proofs codecs ⟨home⟩ 9 people.toString ⟨threeRows.2, [], []⟩ with ⟨o, w'⟩
  rw [hrun] at hok
  exact ⟨w', by rw [← hok]⟩

theorem auditor_can_check_sample : ∃ response fs' text,
    (Api.query libs proofs codecs ⟨home⟩ 9 people.toString ⟨threeRows.2, [], []⟩).1 = .ok response ∧
      (Cli.verifyCommand libs proofs codecs List.reverse (Path.ofLoc []) people.toString Cli.responseFile
        (some (Path.ofLoc home))).eval fs' = .ok text := by
  obtain ⟨w', hquery⟩ := threeRows_answered
  generalize answerFor ⟨ids, [1, 2, 3]⟩ = response at hquery
  obtain ⟨fs', hset⟩ := FileTree.setFile_isSome (c := "response.json".toList) (b := codecs.writeResponse response)
    threeRows.2.lookup_root (by decide +kernel)
  have hsets := FileTree.setFile_spec hset
  have hfile : node fs' Cli.responseFile = some (.file (codecs.writeResponse response)) := by
    have hstraight : Cli.responseFile.Straight := show dotdot ∉ Cli.responseFile.comps by decide
    rw [node_straight fs' hstraight, show Cli.responseFile.trail = .bare by decide, endsAs_bare]
    exact hsets.self
  obtain ⟨parsed, commitments, proof, batch, text, -, -, -, htext⟩ :=
    auditor_can_check (w := ⟨threeRows.2, [], []⟩) libs_lawful proofs_lawful codecs_lawful Lossless.nil
      committed_threeRows hquery (fun r k hr hk => kept_of_saved hsets (by decide) hr hk) rfl hfile
      (fun tables => tables.reverse_perm) (Path.ofLoc [])
  exact ⟨response, fs', text, by rw [hquery], htext⟩

/-- A response, and nothing else. -/
def savedAlone (bytes : Bytes) : Fs :=
  ((FileTree.empty : Fs).setFile [] "response.json".toList bytes).getD FileTree.empty

theorem unpinned_prints_anything_sample : ∃ response text,
    (Api.query libs proofs codecs ⟨home⟩ 9 people.toString ⟨threeRows.2, [], []⟩).1 = .ok response ∧
      (Cli.verifyCommand libs proofs codecs id (Path.ofLoc []) people.toString Cli.responseFile
        (some (Path.ofLoc home))).eval (savedAlone (codecs.writeResponse response)) = .ok text := by
  obtain ⟨w', hquery⟩ := threeRows_answered
  generalize answerFor ⟨ids, [1, 2, 3]⟩ = response at hquery
  have habsent : ∀ bytes, node (savedAlone bytes) (Path.ofLoc home) = none := fun _ => rfl
  have hsaved : ∀ bytes, node (savedAlone bytes) Cli.responseFile = some (.file bytes) := fun _ => rfl
  obtain ⟨batch, text, -, -, htext⟩ := unpinned_prints_anything (w := ⟨threeRows.2, [], []⟩) libs_lawful proofs_lawful
    codecs_lawful Lossless.nil committed_threeRows hquery (habsent _) rfl (hsaved _) (fun tables => List.Perm.refl _)
    (Path.ofLoc [])
  exact ⟨response, text, by rw [hquery], htext⟩

end Sample

end SxtEnterprise
