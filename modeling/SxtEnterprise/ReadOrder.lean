import SxtEnterprise.StoredData

/-!
# The order in which a table is read back

`Stored.run` follows one directory through a run: whatever is done elsewhere, under whatever references,
its log is the batches inserted into it.  They are read back in the order they were inserted up to
`10 ^ 6` files and not beyond (`reads_in_order_iff`), since the file names are padded to six digits only:
`1000000.parquet` sorts before `100001.parquet`.
-/

namespace SxtEnterprise

open NumberedNames Paths FaultyRun

namespace Db

variable {ρ κ σ : Type} (L : Libs ρ κ σ) (db : Db)

/-! ### One directory through a run -/

/-- The batch inserted into the directory `p`, if this event inserted one. -/
def Event.insertedAt (p : Loc Name) (e : Event ρ σ) : Option (RecordBatch ρ) :=
  match e.call, e.outcome with
  | .insert r b _, .ok () => if (db.tableDir r).loc = p then some b else none
  | _, _ => none

/-- The batches successfully inserted into the directory `p`, in order. -/
def insertedAt (hist : List (Event ρ σ)) (p : Loc Name) : List (RecordBatch ρ) :=
  hist.filterMap (Event.insertedAt db p)

/-- An insert into the directory `p` went through or was turned away by its own checks. -/
def Event.SettledAt (p : Loc Name) (e : Event ρ σ) : Prop :=
  ∀ r b setup, e.call = .insert r b setup → (db.tableDir r).loc = p →
    e.outcome = .ok () ∨ ∃ d, e.outcome = .err d ∧ ¬ DbError.Internal d

/-- The table `r` is read back as the log `e`: file by file in the order of the file numbers, every
file whole, and so all rows in the order they were inserted. -/
structure ReadInOrder (fs : Fs) (r : TableRef) (e : TableLog ρ) : Prop where
  paths : (parquetPaths (db.tableDir r)).eval fs
    = .ok ((List.range e.files.length).map (batchPath (db.tableDir r)))
  batches : ∀ i b, e.files[i]? = some b →
    (readBatch L (batchPath (db.tableDir r) i)).eval fs = .ok b
  data : (data L db [r]).eval fs = .ok (IndexMap.collect [(r, e.content)])

section Order

variable {L db} {hist : List (Event ρ σ)} {fs fs' : Fs} {ev : Event ρ σ} {p : Loc Name}
  {e : TableLog ρ} {idx : List ℕ} {r : TableRef}

/-- **One step, seen from one directory.**  Whatever is done elsewhere, a stored log stays, and an
insert here that went through extends it. -/
theorem Stored.step (hL : L.Lawful) (h : Stored L fs p e idx) (hrefs : ∀ r ∈ ev.call.refs, r.Parsed)
    (hsettled : ev.SettledAt db p) (hstep : Step L db fs ev fs') :
    ∃ idx', Stored L fs' p ⟨e.schema, e.batches ++ (ev.insertedAt db p).toList⟩ idx' := by
  have hkept : Kept fs fs' p → ev.insertedAt db p = none →
      ∃ idx', Stored L fs' p ⟨e.schema, e.batches ++ (ev.insertedAt db p).toList⟩ idx' := by
    intro hk hi
    rw [hi, Option.toList_none, List.append_nil]
    exact ⟨idx, h.frame hk⟩
  have hread : (∀ r s setup, ev.call ≠ .createTable r s setup) →
      (∀ r b setup, ev.call ≠ .insert r b setup) → Kept fs fs' p := by
    intro h1 h2
    obtain ⟨k, rfl⟩ := hstep.mkdirs_of_read ⟨h1, h2⟩
    exact Kept.mkdirs _ _ _ _
  obtain ⟨call, fates, outcome⟩ := ev
  cases call with
  | createTable r s setup =>
    obtain ⟨hl, w', hrun, rfl⟩ := hstep
    refine hkept ?_ rfl
    rcases createTable_cases (w := ⟨fs, fates, []⟩) hl hrun with
      ⟨-, -, hsame⟩ | ⟨hpres, ⟨-, k, hk⟩ | ⟨fs₁, rfl, hb, hnul, hleft⟩⟩
    · rw [hsame]; exact Kept.refl _ _
    · rw [hk]; exact Kept.mkdirs _ _ _ _
    · refine (Kept.mkdirs _ _ _ _).trans (hleft.kept ?_)
      rintro rfl
      have hmiss := missing_of_not_present (hrefs r (by simp [Call.refs])) hpres hnul hb
      rw [h.isDir] at hmiss
      simp at hmiss
  | insert r b setup =>
    obtain ⟨hl, w', hrun, rfl⟩ := hstep
    have hr : r.Parsed := hrefs r (by simp [Call.refs])
    by_cases hp : (db.tableDir r).loc = p
    · rcases hsettled r b setup rfl hp with rfl | ⟨d, rfl, hd⟩
      · subst hp
        obtain ⟨-, n, hs⟩ := h.of_insert (w := ⟨fs, fates, []⟩) hL hr hl hrun
        simp only [Event.insertedAt, if_true, Option.toList_some]
        exact ⟨_, hs⟩
      · have hsame : w'.state = fs := insert_turnedAway hd hrun
        exact hkept (by rw [hsame]; exact Kept.refl _ _) rfl
    · refine hkept ?_ ?_
      · rcases insert_cases (w := ⟨fs, fates, []⟩) hr hl hrun with ⟨hsame, -⟩ | ⟨n, k, -, -, -, hleft⟩
        · rw [hsame]; exact Kept.refl _ _
        · exact hleft.kept (Ne.symm hp)
      · rcases outcome with u | _ | _ | _ <;> simp [Event.insertedAt, hp]
  | openAt => exact hkept (hread (by simp) (by simp)) rfl
  | data rs => exact hkept (hread (by simp) (by simp)) rfl
  | schema r => exact hkept (hread (by simp) (by simp)) rfl
  | commitments rs => exact hkept (hread (by simp) (by simp)) rfl
  | tables => exact hkept (hread (by simp) (by simp)) rfl

/-- **A run, seen from one directory.** -/
theorem Stored.run (hL : L.Lawful) {s : Schema} (h : Stored L fs p (TableLog.new s) idx)
    (hrun : Runs (Step L db) fs hist fs') (hrefs : ∀ ev ∈ hist, ∀ r ∈ ev.call.refs, r.Parsed)
    (hsettled : ∀ ev ∈ hist, ev.SettledAt db p) : ∃ idx', Stored L fs' p ⟨s, insertedAt db hist p⟩ idx' := by
  refine hrun.invariant (P := fun hist fs => ∃ idx', Stored L fs p ⟨s, insertedAt db hist p⟩ idx')
    (A := fun ev => (∀ r ∈ ev.call.refs, TableRef.Parsed r) ∧ ev.SettledAt db p)
    (fun ev hev => ⟨hrefs ev hev, hsettled ev hev⟩) ⟨idx, h⟩ ?_
  rintro hist fs₁ ev fs₂ ⟨hr, hs⟩ ⟨idx', h'⟩ hstep
  obtain ⟨idx'', h''⟩ := h'.step hL hr hs hstep
  refine ⟨idx'', ?_⟩
  rw [insertedAt, List.filterMap_append]
  rcases hi : ev.insertedAt db p with _ | b <;> simpa [hi, insertedAt] using h''

/-- A create that went through has stored the empty log. -/
theorem Stored.of_createTable (hr : r.Parsed) {s : Schema} {setup : σ} {w w' : World Fs (Loc Name)}
    (hl : Lossless w.fates) (hrun : createTable L db r s setup w = (.ok (), w')) :
    (db.tableDir r).hasNul = false ∧ Stored L w'.state (db.tableDir r).loc (TableLog.new s) [0] := by
  rcases createTable_cases hl hrun with
    ⟨-, ho, -⟩ | ⟨hpres, ⟨ho, -⟩ | ⟨fs₁, rfl, hb, hnul, hleft⟩⟩
  · simp at ho
  · exact absurd rfl ho
  · refine ⟨hnul, ?_⟩
    have hmiss := missing_of_not_present hr hpres hnul hb
    have hd := FileTree.lookup_mkdirs_path w.state [] (db.tableDir r).loc _ w.state.lookup_root hb le_rfl
      (List.prefix_refl _)
    obtain ⟨bytes, fs₁, k', bytes', hb', hset, hm, hk, hset'⟩ := hleft.of_ok
    exact Stored.new (by simpa using hd) (fun c => w.state.lookup_below_mkdirs hmiss _ c) hb' hset hm hk hset'

/-- The directory of a table just created is tidy. -/
theorem tidy_of_createTable (hr : r.Parsed) {s : Schema} {setup : σ} {w w' : World Fs (Loc Name)}
    (hl : Lossless w.fates) (hrun : createTable L db r s setup w = (.ok (), w')) :
    Tidy w'.state (db.tableDir r).loc := by
  have hmiss : w.state.lookup (db.tableDir r).loc = none := by
    rcases createTable_cases hl hrun with ⟨-, ho, -⟩ | ⟨hpres, ⟨ho, -⟩ | ⟨-, -, hb, hnul, -⟩⟩
    · simp at ho
    · exact absurd rfl ho
    · exact missing_of_not_present hr hpres hnul hb
  intro c _ hdir
  rcases createTable_isDir hl hrun hdir with h | h
  · have := w.state.lookup_parent (p := (db.tableDir r).loc) (c := c) (by rw [h]; simp)
    rw [hmiss] at this
    simp at this
  · have := h.length_le
    simp at this

/-- What the checks of an insert find in a tidy table. -/
theorem Stored.isReady (h : Stored L fs p e idx) (hL : L.Lawful) (hcol : e.schema ≠ []) (ht : Tidy fs p) :
    ∃ k, Ready L fs p e.schema (parquetNames fs p).length k ∧ L.Commits k e.content := by
  obtain ⟨k, hk, hc⟩ := h.commitment
  exact ⟨k, ⟨h.isDir, h.firstSchema_tidy hL hcol ht, rfl, hk.at hL⟩, hc⟩

/-- **Progress.**  With nothing to stop it, a batch the libraries take goes through. -/
theorem Stored.insert_run (h : Stored L fs (db.tableDir r).loc e idx) (hL : L.Lawful) (hr : r.Parsed)
    (hnul : (db.tableDir r).hasNul = false) (hcol : e.schema ≠ []) (ht : Tidy fs (db.tableDir r).loc)
    {b : RecordBatch ρ} {setup : σ} (hs : b.schema = e.schema)
    (hacc : ∀ k, L.Commits k e.content → Accepts L b (L.appendBatch k b setup)) :
    ∃ fs', Step L db fs ⟨.insert r b setup, [], .ok ()⟩ fs' ∧ Tidy fs' (db.tableDir r).loc := by
  obtain ⟨k, hready, hc⟩ := h.isReady hL hcol ht
  have hok := Db.insert_run (w := ⟨fs, [], []⟩) hr rfl (present_of_dir hr hnul h.isDir) (hs ▸ hready)
    (ht _ (isParquet_batchName _)) (hacc k hc)
  have hrun : Db.insert L db r b setup ⟨fs, [], []⟩
      = (.ok (), (Db.insert L db r b setup ⟨fs, [], []⟩).2) :=
    Prod.ext hok rfl
  refine ⟨_, ⟨Lossless.nil, _, hrun, rfl⟩, fun c hc hdir => ?_⟩
  exact ht c hc ((insert_isDir_iff hr Lossless.nil hrun _).mp hdir)

/-- Batches the libraries take go through one after the other. -/
theorem Stored.inserts_run (hL : L.Lawful) (hr : r.Parsed) (hnul : (db.tableDir r).hasNul = false)
    (setup : σ) (bs : List (RecordBatch ρ)) (h : Stored L fs (db.tableDir r).loc e idx)
    (hcol : e.schema ≠ []) (ht : Tidy fs (db.tableDir r).loc) (hs : ∀ b ∈ bs, b.schema = e.schema)
    (hacc : ∀ pre b suf k, bs = pre ++ b :: suf → L.Commits k (⟨e.schema, e.batches ++ pre⟩ : TableLog ρ).content →
      Accepts L b (L.appendBatch k b setup)) :
    ∃ fs', Runs (Step L db) fs (bs.map fun b => ⟨.insert r b setup, [], .ok ()⟩) fs' ∧
      Tidy fs' (db.tableDir r).loc := by
  induction bs generalizing fs e idx with
  | nil => exact ⟨fs, .nil, ht⟩
  | cons b bs ih =>
    obtain ⟨fs₁, hstep, ht₁⟩ := h.insert_run hL hr hnul hcol ht (hs b (by simp)) fun k hk =>
      hacc [] b bs k rfl (by simpa using hk)
    obtain ⟨idx₁, h₁⟩ := h.step hL (by simpa [Call.refs] using hr) (fun _ _ _ _ _ => Or.inl rfl) hstep
    simp only [Event.insertedAt, if_true, Option.toList_some] at h₁
    obtain ⟨fs', hrun, ht'⟩ := ih h₁ hcol ht₁ (fun b' hb' => hs b' (by simp [hb'])) fun pre b' suf k heq hk =>
      hacc (b :: pre) b' suf k (by rw [heq]; rfl) (by simpa using hk)
    exact ⟨fs', Runs.cons hstep hrun, ht'⟩

theorem insertedAt_inserts {setup : σ} (bs : List (RecordBatch ρ)) :
    insertedAt db (bs.map fun b => ⟨.insert r b setup, [], .ok ()⟩) (db.tableDir r).loc = bs := by
  rw [insertedAt, List.filterMap_map]
  simp [Function.comp_def, Event.insertedAt]

/-- A directory whose data was read holds no directory called like a batch. -/
theorem tidy_of_data (hr : r.Parsed) {d : RecordBatch ρ} (h : (tableData L db r).eval fs = .ok d) :
    Tidy fs (db.tableDir r).loc := by
  obtain ⟨-, -, s, bs, -, hbs, -⟩ := (eval_tableData_ok hr).mp h
  intro c hc hdir
  obtain ⟨i, hi, rfl⟩ := List.getElem_of_mem (mem_parquetNames.mpr ⟨hc, by rw [hdir]; simp⟩)
  obtain ⟨-, bytes, hb, -⟩ := hbs.get hi (by rw [← hbs.length_eq]; exact hi)
  rw [List.get_eq_getElem, hdir] at hb
  simp at hb

/-- A directory without columns has no data to read. -/
theorem Batches.columns_of_data (h : Batches L fs (db.tableDir r).loc e idx) (hL : L.Lawful) (hr : r.Parsed)
    {d : RecordBatch ρ} (hdata : (tableData L db r).eval fs = .ok d) : e.schema ≠ [] := by
  obtain ⟨-, -, s, bs, hs, -, -⟩ := (eval_tableData_ok hr).mp hdata
  exact (h.firstSchema hL hs).1

/-- **The files are read in order up to `10 ^ 6` of them, and not beyond.** -/
theorem Stored.readInOrder_iff (h : Stored L fs (db.tableDir r).loc e idx) (hL : L.Lawful)
    (hr : r.Parsed) (hnul : (db.tableDir r).hasNul = false) :
    ReadInOrder L db fs r e ↔
      e.batches.length < 10 ^ 6 ∧ Tidy fs (db.tableDir r).loc ∧ e.schema ≠ [] := by
  have hpaths := fun ps => @eval_parquetPaths_ok _ (tableDir_straight db hr) fs ps
  have hfiles : e.files.length = e.batches.length + 1 := rfl
  constructor
  · intro ho
    have hread := (eval_data_singleton L).mp ho.data
    have ht := tidy_of_data hr hread
    refine ⟨?_, ht, h.columns_of_data hL hr hread⟩
    by_contra hlt
    obtain ⟨-, -, hps⟩ := (hpaths _).mp ho.paths
    rw [h.names_eq ht, List.map_map] at hps
    have hinj : Function.Injective (entryPath (db.tableDir r) ∘ batchName) := by
      intro i j hij
      have hc := congrArg Path.comps hij
      exact batchName_injective (by simpa [entryPath] using hc)
    rw [List.map_congr_left fun i _ => (entryPath_batchName i).symm] at hps
    exact nameOrder_ne_range ".parquet".toList (n := e.files.length) (w := 6) (by decide) (by omega)
      (List.map_injective_iff.mpr hinj hps).symm
  · rintro ⟨hlt, ht, hcol⟩
    have horder : TableLog.readOrder e.files.length = List.range e.files.length :=
      nameOrder_eq_range _ (by decide) (by omega)
    refine ⟨(hpaths _).mpr ⟨hnul, h.isDir, ?_⟩, (h.holds hL hr hnul hcol ht).batches, ?_⟩
    · rw [h.names_eq ht, horder, List.map_map]
      exact List.map_congr_left fun i _ => (entryPath_batchName i).symm
    · rw [eval_data_singleton, h.eval_tableData hL hr hnul hcol ht, e.readBack_eq (by omega)]

/-- **Data is read back in the order it was inserted exactly up to `10 ^ 6` files.**  The other conditions
are the ways a table can be unreadable: a directory in it that is called like a batch, and no columns. -/
theorem reads_in_order_iff (hL : L.Lawful) (hr : r.Parsed) {fates : List Fate} {s : Schema} {setup : σ}
    {w : World Fs (Loc Name)} (hl : Lossless fates)
    (hcreate : createTable L db r s setup ⟨fs, fates, []⟩ = (.ok (), w))
    (hrun : Runs (Step L db) w.state hist fs') (hrefs : ∀ ev ∈ hist, ∀ r ∈ ev.call.refs, r.Parsed)
    (hsettled : ∀ ev ∈ hist, ev.SettledAt db (db.tableDir r).loc) :
    ReadInOrder L db fs' r ⟨s, insertedAt db hist (db.tableDir r).loc⟩ ↔
      (insertedAt db hist (db.tableDir r).loc).length < 10 ^ 6 ∧ Tidy fs' (db.tableDir r).loc ∧ s ≠ [] := by
  obtain ⟨hnul, hnew⟩ := Stored.of_createTable hr hl hcreate
  obtain ⟨idx, h⟩ := hnew.run hL hrun hrefs hsettled
  exact h.readInOrder_iff hL hr hnul

end Order

section Sample

open SampleLibs

/-- A table just created, and two inserts into it. -/
def sampleTable : Fs := (createTable libs ⟨home⟩ people ids 9 ⟨sampleStart, [], []⟩).2.state

def sampleInserts : List (Event UInt8 ℕ) × Fs :=
  play libs ⟨home⟩ sampleTable
    [(.insert people ⟨ids, [1]⟩ 9, []), (.insert people ⟨ids, [2, 3]⟩ 9, [])]

theorem reads_in_order_iff_sample :
    ReadInOrder libs ⟨home⟩ sampleInserts.2 people
        ⟨ids, insertedAt ⟨home⟩ sampleInserts.1 ((⟨home⟩ : Db).tableDir people).loc⟩ ↔
      (insertedAt ⟨home⟩ sampleInserts.1 ((⟨home⟩ : Db).tableDir people).loc).length < 10 ^ 6 ∧
        Tidy sampleInserts.2 ((⟨home⟩ : Db).tableDir people).loc ∧ ids ≠ [] := by
  have hok : ∀ ev ∈ sampleInserts.1, ev.outcome = .ok () := by decide
  have hcreate : createTable libs ⟨home⟩ people ids 9 ⟨sampleStart, [], []⟩
      = (.ok (), (createTable libs ⟨home⟩ people ids 9 ⟨sampleStart, [], []⟩).2) :=
    Prod.ext (by decide) rfl
  exact reads_in_order_iff libs_lawful (by decide) Lossless.nil hcreate
    (runs_play libs ⟨home⟩ (by simp [Lossless]) _) (by decide) fun ev hev _ _ _ _ _ => Or.inl (hok ev hev)

/-- Batches of one row each, all rows alike but the last. -/
def manyBatches (n : ℕ) : List (RecordBatch UInt8) := List.replicate (n - 1) ⟨ids, [0]⟩ ++ [⟨ids, [1]⟩]

theorem mem_manyBatches {n : ℕ} {b : RecordBatch UInt8} (h : b ∈ manyBatches n) :
    b.schema = ids ∧ b.numRows = 1 := by
  rw [manyBatches, List.mem_append, List.mem_singleton] at h
  rcases h with h | rfl
  · rw [List.eq_of_mem_replicate h]; exact ⟨rfl, rfl⟩
  · exact ⟨rfl, rfl⟩

/-- A setup of `n` rows has room for each of them. -/
theorem accepts_manyBatches {n : ℕ} (hn : 0 < n) {pre suf : List (RecordBatch UInt8)} {b k : RecordBatch UInt8}
    (h : manyBatches n = pre ++ b :: suf) (hk : libs.Commits k (⟨ids, pre⟩ : TableLog UInt8).content) :
    Accepts libs b (libs.appendBatch k b n) := by
  obtain ⟨setup, hk⟩ := hk
  obtain ⟨-, -, rfl⟩ := commitBatch_eq_ok.mp hk
  obtain ⟨hs, hb⟩ := mem_manyBatches (n := n) (b := b) (by rw [h]; simp)
  have hrows : (⟨ids, pre⟩ : TableLog UInt8).content.numRows = pre.length := by
    have hone : ∀ b' ∈ pre, b'.rows.length = 1 := fun b' hb' =>
      (mem_manyBatches (n := n) (b := b') (by rw [h]; simp [hb'])).2
    rw [TableLog.content, RecordBatch.concat, RecordBatch.numRows, List.length_flatMap,
      List.map_congr_left hone]
    simp
  have hlen : pre.length + 1 ≤ n := by
    have := congrArg List.length h
    rw [manyBatches, List.length_append, List.length_replicate, List.length_append] at this
    simp only [List.length_cons, List.length_nil] at this
    omega
  have hlong : encode (RecordBatch.concat ids [(⟨ids, pre⟩ : TableLog UInt8).content, b]) = some _ :=
    encode_ids rfl
  exact ⟨_, _, _, encode_ids hs, appendBatch_run (by rw [hs]; rfl) (by rw [hrows, hb]; exact hlen), hlong⟩

/-- The last of `10 ^ 6` batches is not the last one read. -/
theorem readBack_manyBatches {n : ℕ} (hn : n = 10 ^ 6) :
    (⟨ids, manyBatches n⟩ : TableLog UInt8).readBack.rows ≠ (manyBatches n).flatMap RecordBatch.rows := by
  have hpos : 1 < n := by rw [hn]; decide
  have hlen : (⟨ids, manyBatches n⟩ : TableLog UInt8).files.length = n + 1 := by
    simp only [TableLog.files, manyBatches, List.length_cons, List.length_append, List.length_replicate,
      List.length_nil]
    omega
  obtain ⟨init, j, hj⟩ : ∃ init j, TableLog.readOrder (n + 1) = init ++ [j] := by
    have hne : TableLog.readOrder (n + 1) ≠ [] := List.ne_nil_of_mem (TableLog.mem_readOrder.mpr (Nat.succ_pos n))
    exact ⟨_, _, (List.dropLast_append_getLast hne).symm⟩
  have hlast : ∀ i, i < n + 1 → batchName i ≤ batchName j := fun i hi => nameOrder_last hj hi
  have hjlt : j < n + 1 := TableLog.mem_readOrder.mp (by rw [hj]; simp)
  have hj0 : j ≠ 0 := by
    rintro rfl
    have := batchName_injective (le_antisymm (hlast 1 (by omega)) (numbered_zero_le _ (by decide) 1))
    omega
  have hjn : j ≠ n := by
    rintro rfl
    have h1 := hlast (j - 1) (by omega)
    have h2 := numbered_pow_lt (w := 6) ".parquet".toList (by decide)
    rw [← hn] at h2
    exact absurd h1 (not_le.mpr h2)
  have hrow : ((⟨ids, manyBatches n⟩ : TableLog UInt8).files.getD j (RecordBatch.newEmpty ids)).rows = [0] := by
    obtain ⟨i, rfl⟩ : ∃ i, j = i + 1 := ⟨j - 1, by omega⟩
    have hi : i < (List.replicate (n - 1) (⟨ids, [0]⟩ : RecordBatch UInt8)).length := by
      rw [List.length_replicate]; omega
    rw [TableLog.files, List.getD_cons_succ, manyBatches, List.getD_append _ _ _ _ hi,
      List.getD_eq_getElem _ _ hi, List.getElem_replicate]
  intro heq
  have h1 := congrArg List.getLast? heq
  rw [TableLog.readBack, hlen, hj, RecordBatch.concat, List.map_append, List.flatMap_append, List.map_singleton,
    List.flatMap_singleton, hrow, List.getLast?_concat, manyBatches, List.flatMap_append,
    List.flatMap_singleton, List.getLast?_concat] at h1
  simp at h1

/-- **After `10 ^ 6` inserts the data comes back in another order than it was inserted in.** -/
theorem reads_out_of_order : ∃ w fs', createTable libs ⟨home⟩ people ids (10 ^ 6) ⟨sampleStart, [], []⟩ = (.ok (), w) ∧
    Runs (Step libs ⟨home⟩) w.state
      ((manyBatches (10 ^ 6)).map fun b => ⟨.insert people b (10 ^ 6), [], .ok ()⟩) fs' ∧
    ∃ d, (data libs ⟨home⟩ [people]).eval fs' = .ok (IndexMap.collect [(people, d)]) ∧
      d.rows ≠ (manyBatches (10 ^ 6)).flatMap RecordBatch.rows := by
  generalize hn : 10 ^ 6 = n
  have hpos : 1 < n := by rw [← hn]; decide
  have hr : people.Parsed := by decide
  have hfree : sampleStart.lookup ((⟨home⟩ : Db).tableDir people).loc = none := by rfl
  have hcreate : (createTable libs ⟨home⟩ people ids n ⟨sampleStart, [], []⟩).1 = .ok () :=
    createTable_run hr rfl hfree (by decide) (by decide) (by decide)
      ⟨_, ⟨ids, []⟩, _, rfl,
        commitBatch_eq_ok.mpr ⟨by decide, by simp [RecordBatch.newEmpty, RecordBatch.numRows], rfl⟩, rfl⟩
  obtain ⟨hnul, hnew⟩ := Stored.of_createTable (w := ⟨sampleStart, [], []⟩)
    hr Lossless.nil (Prod.ext hcreate rfl)
  have ht := tidy_of_createTable (w := ⟨sampleStart, [], []⟩) hr Lossless.nil (Prod.ext hcreate rfl)
  obtain ⟨fs', hrun, ht'⟩ := hnew.inserts_run libs_lawful hr hnul n (manyBatches n) (List.cons_ne_nil _ _) ht
    (fun b hb => (mem_manyBatches hb).1) fun pre b suf k heq hk => accepts_manyBatches (by omega) heq hk
  obtain ⟨idx, hs⟩ := hnew.run libs_lawful hrun (by simp [Call.refs, hr]) (by
    intro ev hev _ _ _ _ _
    obtain ⟨b, -, rfl⟩ := List.mem_map.mp hev
    exact Or.inl rfl)
  rw [insertedAt_inserts] at hs
  refine ⟨_, fs', Prod.ext hcreate rfl, hrun, _, ?_, readBack_manyBatches hn.symm⟩
  rw [eval_data_singleton, hs.eval_tableData libs_lawful hr hnul (List.cons_ne_nil _ _) ht']

end Sample

end Db

end SxtEnterprise
