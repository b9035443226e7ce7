import SxtEnterprise.Locality
import SxtEnterprise.SampleService
import SxtEnterprise.StoredData

/-!
# Which column types can reach the planner

`prove` takes the types of the stored schemas for types that a commitment was built for, and panics on any other.
That holds of every table as long as no parquet file with another type comes to be (`AllSupported`): an insert
only ever repeats a schema that is there, and a create that is turned away, or is stopped before its first batch
file is whole, leaves no such file.  A create that gets past that file and is refused by the commitment library
does leave one, and the next query of the table panics.
-/

namespace SxtEnterprise

open NumberedNames Paths FaultyRun

variable {ρ κ σ : Type}

/-- Every column of `schema` has a type that the proof system supports. -/
def ProofSystem.Supports (P : ProofSystem ρ κ σ) (schema : Schema) : Prop :=
  ∀ field ∈ schema, (P.columnType field.dataType).isSome = true

instance (P : ProofSystem ρ κ σ) (schema : Schema) : Decidable (P.Supports schema) :=
  inferInstanceAs (Decidable (∀ field ∈ schema, _))

/-- A schema is known to the planner exactly if all its types are supported. -/
theorem ProofSystem.columnsOf_isSome (P : ProofSystem ρ κ σ) {schema : Schema} :
    (P.columnsOf schema).isSome = true ↔ P.Supports schema := by
  rw [ProofSystem.columnsOf, Option.isSome_map, Option.isSome_iff_exists, exists_mapM_iff]
  refine forall_congr' fun field => imp_congr_right fun _ => ?_
  rw [← Option.isSome_iff_exists, Option.isSome_map]

namespace Prove

variable (L : Libs ρ κ σ) (P : ProofSystem ρ κ σ) (db : Db)

theorem schemaAccessor_ne_panic {tables : IndexMap TableRef (RecordBatch ρ)}
    (h : ∀ e ∈ tables.entries, P.Supports e.2.schema) : schemaAccessor P tables ≠ .panic := by
  have hsome : ∃ schemas, tables.entries.mapM (fun e => (P.columnsOf e.2.schema).map (e.1, ·)) = some schemas := by
    rw [exists_mapM_iff]
    intro e he
    rw [← Option.isSome_iff_exists, Option.isSome_map, P.columnsOf_isSome]
    exact h e he
  obtain ⟨schemas, hschemas⟩ := hsome
  rw [schemaAccessor, hschemas]
  simp

/-- For every SQL string given to `prove` on `fs`, whatever befalls its reads, no table it has read makes the
`expect` on its column types fire. -/
def ExpectHolds (fs : Fs) : Prop :=
  ∀ sql statement refs fates tables w', P.parseSql sql = some [statement] → P.tableRefs statement = some refs →
    Lossless fates → Db.data L db refs ⟨fs, fates, []⟩ = (.ok tables, w') →
      (∀ e ∈ tables.entries, P.Supports e.2.schema) ∧ schemaAccessor P tables ≠ .panic

end Prove

namespace Db

variable (L : Libs ρ κ σ) (P : ProofSystem ρ κ σ) (db : Db)

/-- No parquet file has a schema with a type that is not supported. -/
def AllSupported (fs : Fs) : Prop :=
  ∀ p c bytes s, isParquet c = true → fs.lookup (p ++ [c]) = some (.file bytes) → L.parquetSchema bytes = some s →
    P.Supports s

/-- A create of `r` under `schema` leaves no first batch file that could be read: it is turned away, or cannot make
the directory, or is stopped before that file is whole. -/
def Unwritten (fs : Fs) (r : TableRef) (schema : Schema) (fates : List Fate) : Prop :=
  db.present fs r = true ∨ (db.tableDir r).hasNul = true ∨ fs.blocked [] (db.tableDir r).loc = true ∨
    ((db.tableDir r).trail = .dot ∧ fs.lookup (db.tableDir r).loc = none) ∨ (∃ f ∈ fates.take 2, f.stops = true) ∨
      ∀ bytes, L.writeParquet (RecordBatch.newEmpty schema) = some bytes →
        ∃ cut < bytes.length, Cuts (fates.drop 2) cut

/-- The table a call creates, and its schema. -/
def Call.creates : Call ρ σ → Option (TableRef × Schema)
  | .createTable r s _ => some (r, s)
  | _ => none

/-- A step of the database whose creates are of supported types, or leave nothing that could be read. -/
def TypedStep (fs : Fs) (e : Event ρ σ) (fs' : Fs) : Prop :=
  Step L db fs e fs' ∧ ∀ r s, e.call.creates = some (r, s) → P.Supports s ∨ Unwritten L db fs r s e.fates

variable {L P db} {fs fs' : Fs} {r : TableRef} {w w' : World Fs (Loc Name)} {o : Outcome DbError Unit} {setup : σ}

/-! ### Creates that are stopped early -/

/-- A create makes five calls: the directory, the batch file and its content, the commitment file and its content. -/
theorem calls_createTable (L : Libs ρ κ σ) (db : Db) (r : TableRef) (schema : Schema) (setup : σ) :
    (createTable L db r schema setup).Calls 5 := by
  rw [createTable_eq]
  refine Disk.calls_pathExists.bind (k := 5) fun present => ?_
  split
  · exact Prog.Calls.fail 5 _
  · exact Disk.calls_createDirAll.bind fun _ => calls_store _ _ _ _ _

/-- A create stopped before its first batch file is begun has at most made directories. -/
theorem createTable_stopped {schema : Schema} (hl : Lossless w.fates)
    (h : createTable L db r schema setup w = (o, w')) (hstop : db.present w.state r = true ∨
      (db.tableDir r).hasNul = true ∨ w.state.blocked [] (db.tableDir r).loc = true ∨
      ((db.tableDir r).trail = .dot ∧ w.state.lookup (db.tableDir r).loc = none) ∨
      ∃ f ∈ w.fates.take 2, f.stops = true) : ∃ k, w'.state = w.state.mkdirs [] (db.tableDir r).loc k := by
  obtain ⟨w₁, hw₁, hstate, hfates⟩ := pathExists_run db r w
  rw [createTable_eq, Prog.bind_run_ok hw₁] at h
  rcases hpres : db.present w.state r with _ | _
  · rw [hpres] at h hstop
    simp only [Bool.false_eq_true, if_false, false_or] at h hstop
    rcases hd : (Disk.createDirAll (db.tableDir r) : Io DbError Unit) w₁ with ⟨o₂, w₂⟩
    have hl₁ : Lossless w₁.fates := by rw [hfates]; exact hl
    obtain ⟨k, hk, -⟩ := Disk.createDirAll_cases hl₁ hd
    rw [hstate] at hk
    by_cases ho₂ : o₂ = .ok ()
    · subst ho₂
      obtain ⟨hnul, hgo, hb, hdot, rfl⟩ := (Disk.createDirAll_ok hl₁).mp hd
      rw [Prog.bind_run_ok hd] at h
      have hl₂ : Lossless w₁.fates.tail := hl₁.tail
      rcases store_cases rfl hl₂ h with ⟨hsame, -, -⟩ | ⟨hs, -⟩
      · exact ⟨k, hsame.trans hk⟩
      exfalso
      rw [hstate] at hb hdot
      rw [hfates] at hgo hs
      rcases hstop with hstop | hstop | hstop | ⟨f, hf, hstop⟩
      · rw [hnul] at hstop; simp at hstop
      · rw [hb] at hstop; simp at hstop
      · exact hdot hstop
      · rcases hw : w.fates with _ | ⟨f₁, _ | ⟨f₂, fates⟩⟩ <;> rw [hw] at hgo hs hf <;> simp at hgo hs hf
        · rw [hf, hgo] at hstop; simp at hstop
        · rcases hf with rfl | rfl
          · rw [hgo] at hstop; simp at hstop
          · rw [hs] at hstop; simp at hstop
    · obtain ⟨h1, -⟩ := Prog.bind_run_stop (m := Disk.createDirAll (db.tableDir r))
        (f := fun _ => store L (db.tableDir r) 0 (RecordBatch.newEmpty schema) .commit
          (L.commitBatch (RecordBatch.newEmpty schema) 0 setup)) (w := w₁) (by
            rw [hd]; rintro ⟨⟩; exact ho₂)
      rw [hd, h] at h1
      exact ⟨k, by rw [show w' = w₂ from h1, hk]⟩
  · rw [hpres] at h
    change (Outcome.err (DbError.alreadyExists r), w₁) = (o, w') at h
    rw [Prod.mk.injEq] at h
    exact ⟨0, by rw [FileTree.mkdirs_zero, ← h.2, hstate]⟩

/-! ### The invariant -/

theorem AllSupported.mkdirs (h : AllSupported L P fs) (cs : Loc Name) (k : ℕ) :
    AllSupported L P (fs.mkdirs [] cs k) := fun p c bytes s hc hb =>
  h p c bytes s hc (((Kept.mkdirs fs cs k p).file c bytes).mp hb)

/-- What storing a batch leaves in its file: nothing, or what was written up to where the call was cut short. -/
theorem StoreLeft.content {p : Loc Name} {n : ℕ} {batch : RecordBatch ρ} {made : Except Failure κ} {fates : List Fate}
    (h : StoreLeft L fs p n batch made fates o fs') : ∃ x, fs'.lookup (p ++ [batchName n]) = some (.file x) ∧
      (x = [] ∨ ∃ bytes, L.writeParquet batch = some bytes ∧
        ((∃ cut, Cuts (fates.drop 1) cut ∧ x = bytes.take cut) ∨
          (x = bytes ∧ (o = .ok () ∨ ∀ cut, ¬ Cuts (fates.drop 1) cut)))) := by
  have hcommit : p ++ [batchName n] ≠ p ++ [commitName] := by simpa using batchName_ne_commitName n
  cases h with
  | noParquet _ _ hset => exact ⟨[], hset.self, Or.inl rfl⟩
  | partBatch _ hb hcut hset => exact ⟨_, hset.self, Or.inr ⟨_, hb, Or.inl ⟨_, hcut, rfl⟩⟩⟩
  | batchOnly _ hb hwhole hset _ => exact ⟨_, hset.self, Or.inr ⟨_, hb, Or.inr ⟨rfl, Or.inr hwhole⟩⟩⟩
  | partCommit _ hb hwhole hset _ _ _ _ hset' =>
    exact ⟨_, (hset'.ne hcommit).trans hset.self, Or.inr ⟨_, hb, Or.inr ⟨rfl, Or.inr hwhole⟩⟩⟩
  | all hb hset _ _ hset' => exact ⟨_, (hset'.ne hcommit).trans hset.self, Or.inr ⟨_, hb, Or.inr ⟨rfl, Or.inl rfl⟩⟩⟩

/-- Storing a batch keeps the invariant, if its types are supported or its file is cut short. -/
theorem StoreLeft.allSupported {p : Loc Name} {n : ℕ} {batch : RecordBatch ρ} {made : Except Failure κ}
    {fates : List Fate} (h : StoreLeft L fs p n batch made fates o fs') (hL : L.Lawful) (hfs : AllSupported L P fs)
    (hbatch : P.Supports batch.schema ∨ (o ≠ .ok () ∧ ∀ bytes, L.writeParquet batch = some bytes →
      ∃ cut < bytes.length, Cuts (fates.drop 1) cut)) : AllSupported L P fs' := by
  intro q c bytes s hc hb hs
  by_cases hq : q ++ [c] = p ++ [batchName n]
  · obtain ⟨x, hx, hwhat⟩ := h.content
    rw [hq, hx] at hb
    obtain rfl : x = bytes := by simpa using hb
    rcases hwhat with rfl | ⟨whole, hwrite, ⟨cut, hcut, rfl⟩ | ⟨rfl, hended⟩⟩
    · rw [hL.parquetSchema_nil] at hs
      simp at hs
    · by_cases hlt : cut < whole.length
      · rw [hL.parquetSchema_take _ _ _ hwrite hlt] at hs
        simp at hs
      · rw [List.take_of_length_le (by omega), hL.schema_of_write hwrite] at hs
        rcases hbatch with hbatch | ⟨-, hcuts⟩
        · exact hs.2 ▸ hbatch
        · obtain ⟨cut', hlt', hcut'⟩ := hcuts whole hwrite
          rw [hcut.unique hcut'] at hlt
          exact absurd hlt' hlt
    · rw [hL.schema_of_write hwrite] at hs
      rcases hbatch with hbatch | ⟨ho, hcuts⟩
      · exact hs.2 ▸ hbatch
      · obtain ⟨cut, -, hcut⟩ := hcuts x hwrite
        rcases hended with hended | hended
        · exact absurd hended ho
        · exact absurd hcut (hended cut)
  · refine hfs q c bytes s hc ?_ hs
    rw [← h.lookup_ne hq fun heq => ?_]
    · exact hb
    · obtain rfl : c = commitName := by simpa using (List.append_inj' heq rfl).2
      rw [isParquet_commitName] at hc
      simp at hc

theorem AllSupported.createTable (hL : L.Lawful) (hfs : AllSupported L P w.state) (hl : Lossless w.fates)
    {schema : Schema} (h : createTable L db r schema setup w = (o, w'))
    (hschema : P.Supports schema ∨ Unwritten L db w.state r schema w.fates) : AllSupported L P w'.state := by
  by_cases hstop : db.present w.state r = true ∨ (db.tableDir r).hasNul = true ∨
      w.state.blocked [] (db.tableDir r).loc = true ∨
      ((db.tableDir r).trail = .dot ∧ w.state.lookup (db.tableDir r).loc = none) ∨
      ∃ f ∈ w.fates.take 2, f.stops = true
  · obtain ⟨k, hk⟩ := createTable_stopped hl h hstop
    rw [hk]
    exact hfs.mkdirs _ k
  rcases createTable_cases hl h with ⟨hpres, -, -⟩ | ⟨-, ⟨-, k, hk⟩ | ⟨fs₁, rfl, -, -, hleft⟩⟩
  · exact absurd (Or.inl hpres) hstop
  · rw [hk]
    exact hfs.mkdirs _ k
  refine hleft.allSupported hL (hfs.mkdirs _ _) ?_
  rcases hschema with hschema | hunwritten
  · exact Or.inl hschema
  by_cases hbytes : ∃ bytes, L.writeParquet (RecordBatch.newEmpty schema) = some bytes
  · right
    have hcuts : ∀ bytes, L.writeParquet (RecordBatch.newEmpty schema) = some bytes →
        ∃ cut < bytes.length, Cuts (w.fates.drop 2) cut := by
      rcases hunwritten with hu | hu | hu | hu | hu | hu
      · exact absurd (Or.inl hu) hstop
      · exact absurd (Or.inr (Or.inl hu)) hstop
      · exact absurd (Or.inr (Or.inr (Or.inl hu))) hstop
      · exact absurd (Or.inr (Or.inr (Or.inr (Or.inl hu)))) hstop
      · exact absurd (Or.inr (Or.inr (Or.inr (Or.inr hu)))) hstop
      · exact hu
    refine ⟨?_, fun bytes hb => ?_⟩
    · -- a create that goes well has had none of its calls cut short
      rintro rfl
      obtain ⟨bytes, hb⟩ := hbytes
      obtain ⟨cut, -, hcut⟩ := hcuts bytes hb
      obtain ⟨hgo, -⟩ := calls_createTable L db r schema setup w w' () hl h
      rcases hf : w.fates with _ | ⟨f₁, _ | ⟨f₂, _ | ⟨f₃, fates⟩⟩⟩ <;> rw [hf] at hcut hgo <;>
        rcases hcut with hcut | hcut <;> simp at hcut hgo <;> simp [hcut, Fate.stops] at hgo
    · rw [List.drop_drop]
      exact hcuts bytes hb
  · cases hleft with
    | noParquet ho hnone _ => exact Or.inr ⟨ho, fun bytes hb => absurd ⟨bytes, hb⟩ hbytes⟩
    | partBatch _ hb _ _ => exact absurd ⟨_, hb⟩ hbytes
    | batchOnly _ hb _ _ _ => exact absurd ⟨_, hb⟩ hbytes
    | partCommit _ hb _ _ _ _ _ _ _ => exact absurd ⟨_, hb⟩ hbytes
    | all hb _ _ _ _ => exact absurd ⟨_, hb⟩ hbytes

/-- An insert repeats a schema that is there. -/
theorem AllSupported.insert (hL : L.Lawful) (hfs : AllSupported L P w.state) (hr : r.Parsed) (hl : Lossless w.fates)
    {batch : RecordBatch ρ} (h : Db.insert L db r batch setup w = (o, w')) : AllSupported L P w'.state := by
  rcases insert_cases hr hl h with ⟨hsame, -⟩ | ⟨n, k, -, hready, -, hleft⟩
  · rw [hsame]
    exact hfs
  · obtain ⟨c, hc, -, bytes, hb, hs⟩ := hready.first
    exact hleft.allSupported hL hfs
      (Or.inl (hfs _ c bytes _ (mem_parquetNames.mp (List.mem_of_head? hc)).1 hb hs))

/-- **Each such step keeps the invariant.** -/
theorem AllSupported.step (hL : L.Lawful) (hfs : AllSupported L P fs) {e : Event ρ σ}
    (hr : ∀ r ∈ e.call.refs, r.Parsed) (hstep : TypedStep L P db fs e fs') : AllSupported L P fs' := by
  obtain ⟨hstep, htyped⟩ := hstep
  by_cases hread : (∀ r s setup, e.call ≠ .createTable r s setup) ∧ ∀ r b setup, e.call ≠ .insert r b setup
  · obtain ⟨k, rfl⟩ := hstep.mkdirs_of_read hread
    exact hfs.mkdirs _ k
  obtain ⟨hl, w', hrun, rfl⟩ := hstep
  obtain ⟨call, fates, outcome⟩ := e
  rcases call with _ | ⟨r, s, setup⟩ | ⟨r, b, setup⟩ | rs | r | rs | _
  · exact absurd ⟨by simp, by simp⟩ hread
  · exact hfs.createTable (w := ⟨fs, fates, []⟩) hL hl hrun (htyped r s rfl)
  · exact hfs.insert (w := ⟨fs, fates, []⟩) hL (hr r (by simp [Call.refs])) hl hrun
  all_goals exact absurd ⟨by simp, by simp⟩ hread

/-- Every run of such steps keeps it. -/
theorem AllSupported.run (hL : L.Lawful) {es : List (Event ρ σ)} (hrun : Runs (TypedStep L P db) fs es fs')
    (hr : ∀ e ∈ es, ∀ r ∈ e.call.refs, r.Parsed) (hfs : AllSupported L P fs) : AllSupported L P fs' :=
  hrun.invariant (P := fun _ => AllSupported L P) (A := fun e => ∀ r ∈ e.call.refs, r.Parsed) hr hfs
    fun _ _ _ _ hA h hstep => h.step hL hA hstep

/-! ### What is read is supported -/

/-- `concat_batches` makes a batch of the schema it is given. -/
def ConcatsUnder (L : Libs ρ κ σ) : Prop := ∀ schema bs b, L.concatBatches schema bs = some b → b.schema = schema

/-- What a read of a table returns then has supported types. -/
theorem AllSupported.tableData (hcat : ConcatsUnder L) (hfs : AllSupported L P fs) (hr : r.Parsed) {b : RecordBatch ρ}
    (h : (Db.tableData L db r).eval fs = .ok b) : P.Supports b.schema := by
  obtain ⟨-, -, s, bs, ⟨c, hc, -, bytes, hb, hs⟩, -, hb'⟩ := (eval_tableData_ok hr).mp h
  rw [hcat _ _ _ hb']
  exact hfs _ c bytes s (mem_parquetNames.mp (List.mem_of_head? hc)).1 hb hs

/-- So the `expect` of `prove` does not fire. -/
theorem AllSupported.expectHolds (hcat : ConcatsUnder L) (hP : P.Lawful L) (hfs : AllSupported L P fs) :
    Prove.ExpectHolds L P db fs := by
  intro sql statement refs fates tables w' _ hrefs hl hrun
  have heval := (reader_data L refs).honest ⟨fs, fates, []⟩ tables hl (by rw [hrun])
  obtain ⟨bs, hbs, rfl⟩ := (eval_data_ok L).mp heval
  have hall : ∀ e ∈ (IndexMap.collect (refs.zip bs)).entries, P.Supports e.2.schema := by
    have hnd : ((refs.zip bs).map Prod.fst).Nodup := by
      rw [List.map_fst_zip (le_of_eq hbs.length_eq)]
      exact hP.tableRefs_nodup statement refs hrefs
    rw [IndexMap.entries_collect hnd]
    rintro ⟨r, b⟩ he
    have hr := hP.tableRefs_parsed statement refs hrefs r (List.of_mem_zip he).1
    exact hfs.tableData hcat hr ((List.forall₂_iff_zip.mp hbs).2 he)
  exact ⟨hall, Prove.schemaAccessor_ne_panic P hall⟩

/-- **The panic that cannot happen does not happen**, in any run whose creates are of supported types or leave
nothing that could be read: every table whose data is read has types that a commitment can be built for, and no SQL
string makes `prove` meet another. -/
theorem expect_never_fires (hL : L.Lawful) (hcat : ConcatsUnder L) (hP : P.Lawful L) {fs₀ : Fs}
    (hfs : AllSupported L P fs₀) {es : List (Event ρ σ)} (hrun : Runs (TypedStep L P db) fs₀ es fs)
    (hr : ∀ e ∈ es, ∀ r ∈ e.call.refs, r.Parsed) :
    (∀ r b, r.Parsed → (tableData L db r).eval fs = .ok b → P.Supports b.schema) ∧ Prove.ExpectHolds L P db fs := by
  have hall := AllSupported.run hL hrun hr hfs
  exact ⟨fun r b hr hb => hall.tableData hcat hr hb, hall.expectHolds hcat hP⟩

section Sample

open SampleLibs (ids floats home people places)

open SampleService

/-- One create that goes well, one of an unsupported type that is stopped while it writes its file, an insert, and
another create of that type that is turned away. -/
def typedCalls : List (Call UInt8 ℕ × List Fate) :=
  [(.createTable people ids 9, []), (.createTable places floats 9, [.ok, .ok, .kill 1]),
    (.insert people ⟨ids, [1]⟩ 9, []), (.createTable people floats 9, [])]

/-- A create of an unsupported type, and nothing else. -/
def createFloats : Outcome DbError Unit × World Fs (Loc Name) :=
  createTable libs ⟨home⟩ people floats 9 ⟨sampleStart, [], []⟩

/-- The statement that counts the rows of a table parses, and references it. -/
theorem statement_people : proofs.parseSql people.toString = some [people] ∧ proofs.tableRefs people = some [people] := by
  have hparsed : people.Parsed := by decide
  constructor
  · change (TableRef.fromStr people.toString).map (fun r => [r]) = _
    rw [TableRef.fromStr_toString hparsed]
    rfl
  · change refsOf people = _
    exact if_pos hparsed

theorem schemaAccessor_floats :
    Prove.schemaAccessor proofs (IndexMap.collect [(people, (⟨floats, []⟩ : RecordBatch UInt8))]) = .panic := rfl

/-- Once such data is read, `prove` panics. -/
theorem prove_panics {fs : Fs} {w' : World Fs (Loc Name)}
    (h : data libs ⟨home⟩ [people] ⟨fs, [], []⟩ = (.ok (IndexMap.collect [(people, ⟨floats, []⟩)]), w')) :
    (Prove.prove libs proofs ⟨home⟩ people.toString 9 ⟨fs, [], []⟩).1 = .panic := by
  have hread : (Prog.mapErr ProveError.snapshot (data libs ⟨home⟩ [people])) ⟨fs, [], []⟩
      = (.ok (IndexMap.collect [(people, ⟨floats, []⟩)]), w') := by
    rw [Prog.mapErr, h]
    rfl
  have hover : Prove.proveOver proofs people (IndexMap.collect [(people, (⟨floats, []⟩ : RecordBatch UInt8))]) 9
      = .panic := by
    change (Prove.schemaAccessor proofs (IndexMap.collect [(people, (⟨floats, []⟩ : RecordBatch UInt8))]) >>= _) = _
    rw [schemaAccessor_floats]
    rfl
  rw [Prove.prove, statement_people.1]
  change ((Prog.ofOption .tableName (proofs.tableRefs people) >>= _) _ : Outcome _ _ × _).1 = _
  rw [statement_people.2]
  change ((Prog.mapErr ProveError.snapshot (data libs ⟨home⟩ [people]) >>= _) _ : Outcome _ _ × _).1 = _
  rw [Prog.bind_run_ok hread, hover]
  rfl

/-- **A refused create leaves a table whose type makes `prove` panic**, with the database locked. -/
theorem refused_create_makes_prove_panic :
    createFloats.1 = .err .commit ∧ ¬ Prove.ExpectHolds libs proofs ⟨home⟩ createFloats.2.state ∧
      (Prove.prove libs proofs ⟨home⟩ people.toString 9 ⟨createFloats.2.state, [], []⟩).1 = .panic := by
  have hrefused : createFloats.1 = .err .commit := by decide +kernel
  have htable : (tableData libs ⟨home⟩ people).eval createFloats.2.state = .ok ⟨floats, []⟩ := by decide +kernel
  generalize createFloats.2.state = fs at htable ⊢
  obtain ⟨w', hrun, -, -⟩ := (reader_data libs [people]).run_calm (w := ⟨fs, [], []⟩) rfl
    ((eval_data_singleton libs).mpr htable)
  refine ⟨hrefused, fun hexpect => ?_, prove_panics hrun⟩
  exact (hexpect _ _ _ [] _ w' statement_people.1 statement_people.2 Lossless.nil hrun).2 schemaAccessor_floats

/-- The run ends with the data of one table read, and of a supported type. -/
theorem expect_never_fires_sample :
    Prove.ExpectHolds libs proofs ⟨home⟩ (play libs ⟨home⟩ sampleStart typedCalls).2 := by
  have hempty : AllSupported libs proofs FileTree.empty := fun p c bytes s _ hb _ => by
    rw [FileTree.lookup_empty (by simp)] at hb
    simp at hb
  have hstart : AllSupported libs proofs sampleStart := hempty.mkdirs home home.length
  have hcat : ConcatsUnder libs := by
    intro schema bs b h
    change (if ∀ b ∈ bs, b.schema = schema then some (RecordBatch.concat schema bs) else none) = some b at h
    split at h
    · rw [← Option.some.inj h]
      rfl
    · simp at h
  have hevents : ∀ e ∈ (play libs ⟨home⟩ sampleStart typedCalls).1, ∀ x ∈ e.call.creates,
      x.2 = ids ∨ e.outcome = .err (.alreadyExists x.1) ∨ (x.2 = floats ∧ e.fates = [.ok, .ok, .kill 1]) := by
    decide +kernel
  have hrun : Runs (TypedStep libs proofs ⟨home⟩) sampleStart (play libs ⟨home⟩ sampleStart typedCalls).1
      (play libs ⟨home⟩ sampleStart typedCalls).2 := by
    refine (runs_play libs ⟨home⟩ (by simp [typedCalls, Lossless]) _).imp fun fs e fs' he hstep =>
      ⟨hstep, fun r s hcreate => ?_⟩
    rcases hevents e he (r, s) hcreate with rfl | hthere | ⟨rfl, hfates⟩
    · exact Or.inl (by decide)
    · obtain ⟨-, w', hw, -⟩ := hstep
      rcases hcall : e.call with _ | ⟨r', s', setup⟩ | _ | _ | _ | _ | _ <;> rw [hcall] at hcreate hw <;>
        simp only [Call.creates, reduceCtorEq, Option.some.injEq, Prod.mk.injEq] at hcreate
      obtain ⟨rfl, rfl⟩ := hcreate
      rw [hthere] at hw
      exact Or.inr (Or.inl (createTable_alreadyExists (w := ⟨fs, e.fates, []⟩) hw).1)
    · refine Or.inr (Or.inr (Or.inr (Or.inr (Or.inr (Or.inr fun bytes hb => ⟨1, ?_, Or.inr (by rw [hfates]; rfl)⟩)))))
      obtain rfl : [1, 0] = bytes := by
        rw [show libs.writeParquet (RecordBatch.newEmpty floats) = some [1, 0] from rfl] at hb
        exact Option.some.inj hb
      decide
  exact (expect_never_fires libs_lawful hcat proofs_lawful hstart hrun (by decide +kernel)).2

end Sample

end Db

end SxtEnterprise
