import SxtEnterprise.Locality
import SxtEnterprise.DbRuns
import SxtEnterprise.SampleLibs

/-!
# Which failed creates leave no table behind

`create_table` makes the table's directory first, and nothing removes it when a later step fails; to
every other operation the directory is the table.  So a create that fails leaves nothing behind exactly
if it is stopped while it has made no directory at all (`NothingMade`): a schema that the commitment
library refuses leaves a table that is listed and has a schema, but has no commitment and cannot be created
again.
-/

namespace SxtEnterprise

open NumberedNames Paths FaultyRun

namespace Db

variable {ρ κ σ : Type} (L : Libs ρ κ σ) (db : Db)

/-! ### What is asked of a failed create -/

/-- Nothing is left of a failed create of `r`, and everything else is as it was. -/
structure Forgotten (fs fs' : Fs) (r : TableRef) : Prop where
  unlisted : ∃ ts, (tables db).eval fs' = .ok ts ∧ r ∉ ts
  data : (Db.data L db [r]).eval fs' = .err (.notFound r)
  schema : (Db.schema L db r).eval fs' = .err (.notFound r)
  commitment : (commitments L db [r]).eval fs' = .err (.notFound r)
  insert : ∀ batch setup w, w.state = fs' → (Db.insert L db r batch setup w).1 = .err (.notFound r)
  others : ∀ r' : TableRef, r'.Parsed → SameTable L db r' fs fs'
  again : ∀ s setup, Accepts L (RecordBatch.newEmpty s) (L.commitBatch (RecordBatch.newEmpty s) 0 setup) →
    (Db.createTable L db r s setup ⟨fs', [], []⟩).1 = .ok ()

/-- The table can be created, but `create_dir_all` is stopped before it makes its first directory. -/
structure NothingMade (fs : Fs) (r : TableRef) (fates : List Fate) : Prop where
  missing : fs.lookup (db.tableDir r).loc = none
  noNul : (db.tableDir r).hasNul = false
  free : fs.blocked [] (db.tableDir r).loc = false
  notDot : (db.tableDir r).trail ≠ .dot
  stopped : (∃ cut, fates.headD .ok = .fail cut ∧ min cut (fs.missing (db.tableDir r).loc - 1) = 0) ∨
    fates.headD .ok = .kill 0

/-- Every entry of the tree has a name that an entry can have. -/
def Named (fs : Fs) : Prop := ∀ p c, fs.lookup (p ++ [c]) ≠ none → Plain c

/-! ### What a missing table answers -/

section Missing

variable {L db} {fs : Fs} {r : TableRef} {batch : RecordBatch ρ} {setup : σ} {w w' : World Fs (Loc Name)}

theorem present_of_missing (hr : r.Parsed) (h : fs.lookup (db.tableDir r).loc = none) :
    db.present fs r = false := by
  rw [Bool.eq_false_iff]
  exact fun hp => lookup_of_present hr hp h

theorem ifPresent_notFound {α : Type} {m : Io DbError α} (h : db.present w.state r = false) :
    ((do
      let present ← Disk.pathExists (db.tableDir r)
      if !present then Prog.fail (.notFound r) else m : Io DbError α) w).1 = .err (.notFound r) := by
  obtain ⟨w₁, hw₁, -, -⟩ := pathExists_run db r w
  rw [h] at hw₁
  rw [Prog.bind_run_ok hw₁]
  rfl

theorem insert_notFound (h : db.present w.state r = false) :
    (Db.insert L db r batch setup w).1 = .err (.notFound r) := ifPresent_notFound h

theorem eval_schema_notFound (h : db.present fs r = false) :
    (Db.schema L db r).eval fs = .err (.notFound r) := by
  have hreader : (Prod.snd <$> firstSchema L (db.tableDir r)).Reader := by
    rw [map_eq_pure_bind]
    exact (reader_firstSchema L _).bind fun _ => Prog.Reader.pure _
  rw [schema_eq, eval_ifPresent hreader, h]
  rfl

theorem eval_tableData_notFound (h : db.present fs r = false) :
    (tableData L db r).eval fs = .err (.notFound r) := by
  rw [tableData_eq, eval_ifPresent ((reader_firstSchema L _).bind fun _ =>
    (Prog.Reader.mapM (reader_readBatch L) _).bind fun _ => Prog.Reader.ofOption _ _), h]
  rfl

theorem raises_readCommitment {path : Path} : (readCommitment L path).Raises DbError.Internal :=
  (Disk.raises_readCall trivial).bind fun _ => (Prog.Raises.ofOption trivial _).bind fun _ =>
    Prog.Raises.pure _

/-- **Only tables that are not there are not found.** -/
theorem eval_tableCommitment_notFound :
    (tableCommitment L db r).eval fs = .err (.notFound r) ↔ db.present fs r = false := by
  rw [tableCommitment, eval_ifPresent (reader_readCommitment L _)]
  rcases h : db.present fs r with _ | _
  · simp
  · simp only [if_true, Bool.true_eq_false, iff_false]
    exact fun he => raises_readCommitment _ _ he

theorem eval_keyed_err {α : Type} {f : TableRef → Io DbError α} (hf : ∀ r, (f r).Reader) {e : DbError} :
    (do
      let entries ← [r].mapM fun r => do
        let a ← f r
        pure (r, a)
      pure (IndexMap.collect entries) : Io DbError _).eval fs = .err e ↔ (f r).eval fs = .err e := by
  have hentry : ∀ r, (do
      let a ← f r
      pure (r, a) : Io DbError (TableRef × α)).Reader :=
    fun r => (hf r).bind fun _ => Prog.Reader.pure _
  rw [(Prog.Reader.mapM hentry [r]).eval_bind fun _ => Prog.Reader.pure _, List.mapM_cons, List.mapM_nil,
    (hentry r).eval_bind fun _ => (Prog.Reader.pure _).bind fun _ => Prog.Reader.pure _,
    (hf r).eval_bind fun _ => Prog.Reader.pure _]
  rcases (f r).eval fs with a | _ | _ | _ <;> simp [Prog.castStop, Prog.eval]

/-- **What is listed**: the directories in the database's own whose names parse. -/
theorem eval_tables (hd : fs.lookup db.dir = some .dir) (hnames : ∀ c ∈ fs.children db.dir, c ≠ dotdot) :
    (tables db).eval fs = .ok (((fs.children db.dir).filter fun c =>
      !c.contains '\x00' && decide (fs.lookup (db.dir ++ [c]) = some .dir)).filterMap TableRef.fromStr) := by
  have hstraight : (Path.ofLoc db.dir).Straight := by simp [Path.Straight, Path.ofLoc]
  have hkind : ∀ c, (do
      let dir ← Disk.isDir (entryPath (Path.ofLoc db.dir) c)
      pure (c, dir) : Io DbError (Name × Bool)).Reader := fun _ =>
    Disk.reader_isDir.bind fun _ => Prog.Reader.pure _
  rw [tables, Disk.reader_readDir.eval_bind fun _ =>
      (Prog.Reader.mapM hkind _).bind fun _ => Prog.Reader.pure _,
    (Disk.eval_readDir_ok hstraight).mpr ⟨by simp [Path.hasNul, Path.ofLoc], hd, rfl⟩]
  simp only []
  rw [(Prog.Reader.mapM hkind _).eval_bind fun _ => Prog.Reader.pure _,
    Prog.Reader.eval_mapM_map hkind (g := fun c =>
      (c, !c.contains '\x00' && decide (fs.lookup (db.dir ++ [c]) = some .dir))) ?_]
  · show Outcome.ok _ = Outcome.ok _
    rw [List.filter_map, List.filterMap_map, List.filterMap_map]
    simp [Function.comp_def, Path.loc, Path.ofLoc]
  · intro c hc
    have hdd : c ≠ dotdot := hnames c (by simpa [Path.loc, Path.ofLoc] using hc)
    rw [Disk.reader_isDir.eval_bind fun _ => Prog.Reader.pure _, Disk.eval_isDir, hasNul_entryPath,
      node_entryPath fs hstraight hdd]
    simp [Prog.eval, Path.hasNul, Path.ofLoc, Path.loc]
    congr

/-- A reference that leads to nothing is not listed. -/
theorem notMem_tables (hn : Named fs) (hd : fs.lookup db.dir = some .dir)
    (hm : fs.lookup (db.tableDir r).loc = none) : ∃ ts, (tables db).eval fs = .ok ts ∧ r ∉ ts := by
  have hplain : ∀ c ∈ fs.children db.dir, Plain c := fun c hc => hn db.dir c (FileTree.mem_children.mp hc)
  refine ⟨_, eval_tables hd fun c hc => (hplain c hc).ne_dotdot, fun hmem => ?_⟩
  obtain ⟨c, hc, hparse⟩ := List.mem_filterMap.mp hmem
  obtain ⟨hchild, hdir⟩ := List.mem_filter.mp hc
  obtain rfl := TableRef.toString_of_fromStr hparse
  rw [tableDir_loc_plain db (hplain _ hchild)] at hm
  simp [hm] at hdir

end Missing

/-! ### A create that fails -/

section Create

variable {L db} {fs : Fs} {r : TableRef} {schema : Schema} {setup : σ} {fates : List Fate}
  {o : Outcome DbError Unit} {w w' : World Fs (Loc Name)}

/-- What a create needs in order to go through. -/
theorem createTable_ok_needs (hl : Lossless w.fates)
    (h : createTable L db r schema setup w = (.ok (), w')) :
    (db.tableDir r).hasNul = false ∧ w.state.blocked [] (db.tableDir r).loc = false ∧
      ¬ ((db.tableDir r).trail = .dot ∧ w.state.lookup (db.tableDir r).loc = none) := by
  obtain ⟨w₁, hw₁, hstate, hfates⟩ := pathExists_run db r w
  rw [createTable_eq, Prog.bind_run_ok hw₁] at h
  rcases hpres : db.present w.state r with _ | _ <;> rw [hpres] at h
  · simp only [Bool.false_eq_true, if_false] at h
    obtain ⟨_, w₂, hmake, -⟩ := Prog.bind_eq_ok.mp h
    obtain ⟨hnul, -, hfree, hdot, -⟩ := (Disk.createDirAll_ok (by rwa [hfates])).mp hmake
    rw [hstate] at hfree hdot
    exact ⟨hnul, hfree, hdot⟩
  · simp at h

/-- A create that fails either made the table's directory or was stopped by `create_dir_all`. -/
theorem createTable_fails (hl : Lossless w.fates) (hpres : db.present w.state r = false) (hr : r.Parsed)
    (h : createTable L db r schema setup w = (o, w')) :
    ((w.fates.headD .ok).stops = false ∧ (db.tableDir r).hasNul = false ∧
      w'.state.lookup (db.tableDir r).loc = some .dir) ∨
    ((db.tableDir r).hasNul = true ∧ w'.state = w.state) ∨
    (w.state.blocked [] (db.tableDir r).loc = true ∧ w'.state = w.state) ∨
    ((db.tableDir r).trail = .dot ∧ w.state.lookup (db.tableDir r).loc = none ∧
      ∃ k, w'.state = w.state.mkdirs [] (db.tableDir r).loc k) ∨
    ((db.tableDir r).hasNul = false ∧ w.state.blocked [] (db.tableDir r).loc = false ∧
      ((∃ cut, w.fates.headD .ok = .fail cut ∧
      w'.state = w.state.mkdirs [] (db.tableDir r).loc (min cut (w.state.missing (db.tableDir r).loc - 1))) ∨
    ∃ cut, w.fates.headD .ok = .kill cut ∧ w'.state = w.state.mkdirs [] (db.tableDir r).loc cut)) := by
  obtain ⟨w₁, hw₁, hstate, hfates⟩ := pathExists_run db r w
  rw [createTable_eq, Prog.bind_run_ok hw₁, hpres] at h
  simp only [Bool.false_eq_true, if_false] at h
  have hl₁ : Lossless w₁.fates := by rwa [hfates]
  rcases hd : (Disk.createDirAll (db.tableDir r) : Io DbError Unit) w₁ with ⟨o₂, w₂⟩
  by_cases ho₂ : o₂ = .ok ()
  · subst ho₂
    obtain ⟨hnul, hgo, hfree, -, rfl⟩ := (Disk.createDirAll_ok hl₁).mp hd
    rw [hstate] at hfree
    rw [hfates] at hgo
    rw [Prog.bind_run_ok hd] at h
    have hmiss := missing_of_not_present hr hpres hnul hfree
    have hmade := FileTree.lookup_mkdirs_path w.state [] (db.tableDir r).loc _ w.state.lookup_root hfree
      le_rfl (List.prefix_refl _)
    rw [← hstate] at hmade
    refine Or.inl ⟨hgo, hnul, ?_⟩
    rcases store_cases rfl hl₁.tail h with ⟨hsame, -, -⟩ | ⟨-, hleft⟩
    · rw [hsame]; exact hmade
    · exact (hleft.isDir_iff _).mpr hmade
  · obtain ⟨h1, -⟩ := Prog.bind_run_stop (m := Disk.createDirAll (db.tableDir r))
      (f := fun _ => store L (db.tableDir r) 0 (RecordBatch.newEmpty schema) .commit
        (L.commitBatch (RecordBatch.newEmpty schema) 0 setup)) (w := w₁) (by rw [hd]; rintro ⟨⟩; exact ho₂)
    rw [hd, h] at h1
    obtain rfl : w' = w₂ := h1
    have hstops := Disk.createDirAll_stops hl₁ hd ho₂
    rw [hstate, hfates] at hstops
    exact Or.inr hstops

/-- **With one directory made, something that was not there is there**, and has a reference. -/
theorem exists_appeared (hr : r.Parsed) (hd : fs.lookup db.dir = some .dir)
    (hm : fs.lookup (db.tableDir r).loc = none) (hnul : (db.tableDir r).hasNul = false)
    (hfree : fs.blocked [] (db.tableDir r).loc = false) {n : ℕ} (hn : 0 < n) :
    ∃ r' : TableRef, r'.Parsed ∧ db.present fs r' = false ∧
      db.present (fs.mkdirs [] (db.tableDir r).loc n) r' = true := by
  obtain ⟨q, hq, hnone, hmade⟩ := fs.mkdirs_makes [] (db.tableDir r).loc hn fs.lookup_root hfree hm
  rw [List.nil_append] at hnone hmade
  have hloc := Path.loc_straight (tableDir_straight db hr)
  -- the directory made lies below where the path starts
  have hstart : fs.lookup (db.tableDir r).start = some .dir := by
    rw [tableDir, Path.join]
    split
    · exact fs.lookup_root
    · exact hd
  obtain ⟨l, rfl⟩ : (db.tableDir r).start <+: q := by
    rw [hloc] at hq
    rcases List.prefix_or_prefix_of_prefix hq (List.prefix_append _ _) with h | h
    · obtain ⟨l, hl⟩ := h
      rcases eq_or_ne l [] with rfl | hne
      · exact ⟨[], by simpa using hl.symm⟩
      · rw [← hl] at hstart
        rw [fs.lookup_above l hne (by rw [hstart]; simp)] at hnone
        simp at hnone
    · exact h
  have hl : l <+: (db.tableDir r).comps := by
    rw [hloc] at hq
    exact (List.prefix_append_right_inj _).mp hq
  obtain ⟨r', hr', hcomps, hst⟩ := TableRef.exists_parsed_above hr (Path.ofLoc db.dir) hl
    (by simp [Path.ofLoc])
  have hloc' : (db.tableDir r').loc = (db.tableDir r).start ++ l := by
    rw [Path.loc_straight (tableDir_straight db hr')]
    exact congrArg₂ (· ++ ·) hst hcomps
  have hnul' : (db.tableDir r').hasNul = false := by
    rw [Path.hasNul, List.any_eq_false] at hnul ⊢
    intro c hc
    exact hnul c (hl.subset (hcomps ▸ hc))
  exact ⟨r', hr', present_of_missing hr' (by rwa [hloc']), present_of_dir hr' hnul' (by rwa [hloc'])⟩

/-- A create stopped so early changes nothing. -/
theorem NothingMade.state (h : NothingMade db fs r fates) (hr : r.Parsed) (hl : Lossless fates)
    (hrun : createTable L db r schema setup ⟨fs, fates, []⟩ = (o, w')) : w'.state = fs := by
  obtain ⟨hmiss, -, -, hdot, hstopped⟩ := h
  rcases createTable_fails (w := ⟨fs, fates, []⟩) hl (present_of_missing hr hmiss) hr hrun with
    ⟨hgo, -, -⟩ | ⟨-, hw'⟩ | ⟨-, hw'⟩ | ⟨hdot', -⟩ | ⟨-, -, ⟨cut, hf, hw'⟩ | ⟨cut, hf, hw'⟩⟩
  · change (fates.headD .ok).stops = false at hgo
    rcases hstopped with ⟨cut, hf, -⟩ | hf <;>
    · rw [hf] at hgo
      simp [Fate.stops] at hgo
  · exact hw'
  · exact hw'
  · exact absurd hdot' hdot
  · rcases hstopped with ⟨cut', hf', hzero⟩ | hf'
    · obtain rfl : cut = cut' := by simpa using hf.symm.trans hf'
      rw [hw', hzero, FileTree.mkdirs_zero]
    · exact absurd (hf.symm.trans hf') (by simp)
  · rcases hstopped with ⟨cut', hf', -⟩ | hf'
    · exact absurd (hf.symm.trans hf') (by simp)
    · obtain rfl : cut = 0 := by simpa using hf.symm.trans hf'
      rw [hw', FileTree.mkdirs_zero]

/-- **When a create leaves no table behind**, in any state of the database: exactly if it was stopped before
it made any directory. -/
theorem failed_create_forgotten_iff (hr : r.Parsed) (hd : fs.lookup db.dir = some .dir) (hn : Named fs)
    (hvalid : ∃ s setup', Accepts L (RecordBatch.newEmpty s) (L.commitBatch (RecordBatch.newEmpty s) 0 setup'))
    (hl : Lossless fates) (hrun : createTable L db r schema setup ⟨fs, fates, []⟩ = (o, w')) :
    Forgotten L db fs w'.state r ↔ NothingMade db fs r fates := by
  constructor
  · intro h
    have hpres' : db.present w'.state r = false :=
      eval_tableCommitment_notFound.mp ((eval_keyed_err fun r => reader_tableCommitment L r).mp h.commitment)
    have hsame := fun r' hr' => (h.others r' hr').commitment
    have hpres : db.present fs r = false := by
      rw [← eval_tableCommitment_notFound (L := L), hsame r hr]
      exact eval_tableCommitment_notFound.mpr hpres'
    obtain ⟨s, setup', hacc⟩ := hvalid
    obtain ⟨hnul, hfree', hdot'⟩ := createTable_ok_needs (w := ⟨w'.state, [], []⟩) Lossless.nil
      (Prod.ext (h.again s setup' hacc) rfl)
    -- a directory made would have become a table
    have hnone : ∀ n, w'.state = fs.mkdirs [] (db.tableDir r).loc n →
        fs.blocked [] (db.tableDir r).loc = false → n = 0 := by
      intro n hw' hfree
      by_contra hpos
      obtain ⟨r', hr', hbefore, hafter⟩ := exists_appeared hr hd
        (missing_of_not_present hr hpres hnul hfree) hnul hfree (Nat.pos_of_ne_zero hpos)
      rw [← hw', ← Bool.not_eq_false, ← eval_tableCommitment_notFound (L := L), ← hsame r' hr'] at hafter
      exact hafter (eval_tableCommitment_notFound.mpr hbefore)
    rcases createTable_fails (w := ⟨fs, fates, []⟩) hl hpres hr hrun with
      ⟨-, -, hmade⟩ | ⟨hnul', -⟩ | ⟨hb, hw'⟩ | ⟨hdot, hm, k, hw'⟩ | ⟨-, hfree, hstopped⟩
    · rw [present_of_dir hr hnul hmade] at hpres'
      simp at hpres'
    · rw [hnul] at hnul'
      simp at hnul'
    · rw [show w'.state = fs from hw', hb] at hfree'
      simp at hfree'
    · refine absurd ⟨hdot, ?_⟩ hdot'
      rcases FileTree.lookup_mkdirs fs [] (db.tableDir r).loc k (db.tableDir r).loc with hsame' | ⟨-, hmade, -⟩
      · rw [show w'.state = _ from hw', hsame']; exact hm
      · rw [show w'.state = _ from hw', present_of_dir hr hnul hmade] at hpres'
        simp at hpres'
    · have hmiss := missing_of_not_present hr hpres hnul hfree
      refine ⟨hmiss, hnul, hfree, fun hdot => ?_, ?_⟩
      · obtain ⟨k, hw'⟩ : ∃ k, w'.state = fs.mkdirs [] (db.tableDir r).loc k := by
          rcases hstopped with ⟨cut, -, hw'⟩ | ⟨cut, -, hw'⟩ <;> exact ⟨_, hw'⟩
        refine hdot' ⟨hdot, ?_⟩
        rw [hw', hnone k hw' hfree, FileTree.mkdirs_zero]
        exact hmiss
      · rcases hstopped with ⟨cut, hf, hw'⟩ | ⟨cut, hf, hw'⟩
        · exact Or.inl ⟨cut, hf, hnone _ hw' hfree⟩
        · obtain rfl := hnone _ hw' hfree
          exact Or.inr hf
  · intro h
    have hpres : db.present fs r = false := present_of_missing hr h.missing
    have hsame := h.state hr hl hrun
    obtain ⟨hmiss, hnul, hfree, hdot, -⟩ := h
    rw [hsame]
    exact {
      unlisted := notMem_tables hn hd hmiss
      data := (eval_keyed_err fun r => reader_tableData L r).mpr (eval_tableData_notFound hpres)
      schema := eval_schema_notFound hpres
      commitment := (eval_keyed_err fun r => reader_tableCommitment L r).mpr
        (eval_tableCommitment_notFound.mpr hpres)
      insert := fun _ _ w hw => insert_notFound (by rw [hw]; exact hpres)
      others := fun _ _ => ⟨rfl, rfl, rfl⟩
      again := fun s setup' hacc => createTable_run (w := ⟨fs, [], []⟩) hr rfl hmiss hnul hfree hdot hacc }

end Create

section Sample

open SampleLibs

theorem named_of_keys {fs : Fs} (h : ∀ q ∈ fs.nodes.keys, ∀ c ∈ q.getLast?, Plain c) : Named fs := by
  intro p c hc
  refine h (p ++ [c]) ?_ c (by simp)
  rwa [← AList.mem_keys, ← AList.lookup_isSome, Option.isSome_iff_ne_none]

/-- A database just opened. -/
def emptyDb : Fs := (openAt home ⟨FileTree.empty, [], []⟩).2.state

theorem failed_create_forgotten_iff_sample :
    Forgotten libs ⟨home⟩ emptyDb (createTable libs ⟨home⟩ people ids 9 ⟨emptyDb, [.fail 0], []⟩).2.state people ↔
      NothingMade ⟨home⟩ emptyDb people [.fail 0] := by
  have hvalid : Accepts libs (RecordBatch.newEmpty ids) (libs.commitBatch (RecordBatch.newEmpty ids) 0 9) :=
    ⟨_, RecordBatch.newEmpty ids, _, rfl, rfl, rfl⟩
  have hfails : (createTable libs ⟨home⟩ people ids 9 ⟨emptyDb, [.fail 0], []⟩).1 = .err .io := by
    decide +kernel
  exact failed_create_forgotten_iff (by decide) (by decide) (named_of_keys (by decide +kernel)) ⟨ids, 9, hvalid⟩
    (by simp [Lossless]) (Prod.ext hfails rfl)

/-- A create with a column of a type that cannot be committed to. -/
def refusedCreate : Outcome DbError Unit × World Fs (Loc Name) :=
  createTable libs ⟨home⟩ people floats 9 ⟨emptyDb, [], []⟩

/-- **A schema refused by the commitment library leaves a table**: it is listed, has a schema, and cannot be
created again. -/
theorem refused_create_leaves_a_table :
    refusedCreate.1 = .err .commit ∧ ¬ Forgotten libs ⟨home⟩ emptyDb refusedCreate.2.state people ∧
      (tables ⟨home⟩).eval refusedCreate.2.state = .ok [people] ∧
      (schema libs ⟨home⟩ people).eval refusedCreate.2.state = .ok floats ∧
      (createTable libs ⟨home⟩ people ids 9 ⟨refusedCreate.2.state, [], []⟩).1 = .err (.alreadyExists people) := by
  have hschema : (schema libs ⟨home⟩ people).eval refusedCreate.2.state = .ok floats := by decide +kernel
  refine ⟨by decide +kernel, fun h => ?_, by decide +kernel, hschema, by decide +kernel⟩
  have hnot := h.schema
  rw [hschema] at hnot
  simp at hnot

end Sample

end Db

end SxtEnterprise
