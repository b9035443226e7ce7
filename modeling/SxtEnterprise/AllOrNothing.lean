import SxtEnterprise.Locality
import SxtEnterprise.ReadOrder

/-!
# Which inserts are all or nothing

`insert` writes its batch file, extends the commitment in memory and then writes the commitment file, and
it undoes nothing when it stops in between.  So an insert that stops leaves everything as it was exactly
if it had made no batch file yet, or if its batch holds no rows and every file it had begun to write was
written to its end (`Clean`).  In a run in which every insert that stopped was clean, data and
commitment of every table stay in step (`Tallied.run`); the batch left behind by any other stopped insert
is read as data that no commitment covers.
-/

namespace SxtEnterprise

open NumberedNames Paths FaultyRun

namespace Db

variable {ρ κ σ : Type} (L : Libs ρ κ σ) (db : Db)

/-! ### What is asked of an insert -/

/-- The tables that are there read the same in both file systems. -/
def Unchanged (fs fs' : Fs) : Prop :=
  ∀ rs : List TableRef, (∀ r ∈ rs, r.Parsed ∧ fs.lookup (db.tableDir r).loc = some .dir) →
    (data L db rs).eval fs' = (data L db rs).eval fs ∧
      (commitments L db rs).eval fs' = (commitments L db rs).eval fs

/-- The data of the table `r` and its commitment are both of the rows `rows`. -/
structure InStep (fs : Fs) (r : TableRef) (rows : List ρ) : Prop where
  data : ∃ d, (tableData L db r).eval fs = .ok d ∧ d.rows.Perm rows
  commitment : ∃ k content, (tableCommitment L db r).eval fs = .ok k ∧ L.Commits k content ∧
    content.rows = rows

/-! ### When an insert that stops leaves nothing behind -/

/-- The insert makes no batch file: its checks turn it away, one of its first four calls is stopped, or
the file's name is a directory's. -/
def NotBegun (fs : Fs) (r : TableRef) (b : RecordBatch ρ) (fates : List Fate) : Prop :=
  (db.present fs r = true → ∀ n k, ¬ Ready L fs (db.tableDir r).loc b.schema n k) ∨
  (∃ f ∈ fates.take 4, f.stops = true) ∨
  fs.lookup ((db.tableDir r).loc ++ [batchName (parquetNames fs (db.tableDir r).loc).length]) = some .dir

/-- The batch holds no rows, and the files the insert gets to are written to their end. -/
structure Harmless (fs : Fs) (r : TableRef) (b : RecordBatch ρ) (setup : σ) (fates : List Fate) : Prop where
  rows : b.rows = []
  batch : ∃ bytes, L.writeParquet b = some bytes ∧ ∀ cut, Cuts (fates.drop 4) cut → bytes.length ≤ cut
  commitment : ∀ k k' bytes, CommitmentAt L fs (db.tableDir r).loc k → L.appendBatch k b setup = .ok k' →
    L.serialize k' = some bytes → (∀ cut, ¬ Cuts (fates.drop 4) cut) →
      ((fates.drop 5).headD .ok).stops = false → ∀ cut, Cuts (fates.drop 6) cut → bytes.length ≤ cut

/-- The insert, if it stops, leaves nothing behind. -/
def Clean (fs : Fs) (r : TableRef) (b : RecordBatch ρ) (setup : σ) (fates : List Fate) : Prop :=
  NotBegun L db fs r b fates ∨ Harmless L db fs r b setup fates

/-- One call on the file system, which is clean if it is an insert that stops. -/
def CleanStep (fs : Fs) (e : Event ρ σ) (fs' : Fs) : Prop :=
  Step L db fs e fs' ∧ ∀ r b setup, e.call = .insert r b setup → e.outcome ≠ .ok () →
    Clean L db fs r b setup e.fates

section Left

variable {L db} {fs fs' : Fs} {r : TableRef} {b : RecordBatch ρ} {setup : σ} {fates : List Fate}
  {p : Loc Name} {n : ℕ} {k : κ} {o : Outcome DbError Unit} {e : TableLog ρ} {idx : List ℕ}

/-- An insert that made its batch file had begun. -/
theorem Ready.begun (hready : Ready L fs (db.tableDir r).loc b.schema n k) (hpres : db.present fs r = true)
    (hgo : ∀ f ∈ fates.take 4, f.stops = false)
    (hfree : fs.lookup ((db.tableDir r).loc ++ [batchName n]) ≠ some .dir) : ¬ NotBegun L db fs r b fates := by
  rintro (h | ⟨f, hf, h⟩ | h)
  · exact h hpres n k hready
  · rw [hgo f hf] at h
    simp at h
  · rw [← hready.count] at h
    exact hfree h

theorem StoreLeft.free {made : Except Failure κ} (h : StoreLeft L fs p n b made fates o fs') :
    fs.lookup (p ++ [batchName n]) ≠ some .dir := by
  cases h with
  | noParquet _ _ hset => exact hset.notDir
  | partBatch _ _ _ hset => exact hset.notDir
  | batchOnly _ _ _ hset _ => exact hset.notDir
  | partCommit _ _ _ hset _ _ _ _ _ => exact hset.notDir
  | all _ hset _ _ _ => exact hset.notDir

/-- A batch without rows does not change the content. -/
theorem content_push_nil (h : b.rows = []) : (e.push b).content = e.content := by
  rw [TableLog.content, TableLog.content, TableLog.push_batches, TableLog.push_schema, RecordBatch.concat,
    RecordBatch.concat, List.flatMap_append, List.flatMap_singleton, h, List.append_nil]

/-- **What a harmless insert leaves**: one whole batch file more, without rows, and the commitment file it
found or one of the same content. -/
theorem Stored.harmless (h : Stored L fs (db.tableDir r).loc e idx) (hL : L.Lawful)
    (hready : Ready L fs (db.tableDir r).loc b.schema n k)
    (hleft : StoreLeft L fs (db.tableDir r).loc n b (L.appendBatch k b setup) (fates.drop 3) o fs')
    (hno : o ≠ .ok ()) (hharm : Harmless L db fs r b setup fates) :
    Stored L fs' (db.tableDir r).loc (e.push b) (idx ++ [n]) ∧
      ∃ fs₁ bytes, L.writeParquet b = some bytes ∧ fs.Sets (db.tableDir r).loc (batchName n) bytes fs₁ ∧
        ∀ q, q ≠ (db.tableDir r).loc ++ [commitName] → fs'.lookup q = fs₁.lookup q := by
  obtain ⟨hs, hk⟩ := h.ready hL hready
  have hcol := (h.firstSchema hL hready.first).1
  obtain ⟨hrows, ⟨bytes, hbytes, hcut⟩, hcommit⟩ := hharm
  -- the batch file is whole and the commitment file untouched
  have hbatch : fs.Sets (db.tableDir r).loc (batchName n) bytes fs' →
      Stored L fs' (db.tableDir r).loc (e.push b) (idx ++ [n]) ∧
        ∃ fs₁ bytes, L.writeParquet b = some bytes ∧ fs.Sets (db.tableDir r).loc (batchName n) bytes fs₁ ∧
          ∀ q, q ≠ (db.tableDir r).loc ++ [commitName] → fs'.lookup q = fs₁.lookup q := by
    intro hset
    refine ⟨⟨h.append hready.count hset hbytes hcol hs fun _ _ => rfl, ?_⟩, fs', bytes, hbytes, hset, fun _ _ => rfl⟩
    obtain ⟨k₀, ⟨bytes₀, hser, hfile⟩, hc⟩ := h.commitment
    refine ⟨k₀, ⟨bytes₀, hser, ?_⟩, by rwa [content_push_nil hrows]⟩
    rw [hset.ne (by simpa using (batchName_ne_commitName n).symm), hfile]
  cases hleft with
  | noParquet _ hnone _ =>
    rw [hbytes] at hnone
    simp at hnone
  | @partBatch _ _ bytes' cut _ hb hc hset =>
    rw [hbytes, Option.some.injEq] at hb
    subst hb
    rw [List.drop_drop] at hc
    rw [List.take_of_length_le (hcut cut hc)] at hset
    exact hbatch hset
  | batchOnly _ hb _ hset _ =>
    rw [hbytes, Option.some.injEq] at hb
    subst hb
    exact hbatch hset
  | @partCommit _ _ _ fs₁ k' bytes' cut _ hb hwhole hset hmade hser hopen hc hset' =>
    rw [hbytes, Option.some.injEq] at hb
    subst hb
    rw [List.drop_drop] at hopen hc
    have hlen := hcommit k k' bytes' hready.commitment hmade hser
      (fun cut hcut => hwhole cut (by rwa [List.drop_drop])) hopen cut hc
    rw [List.take_of_length_le hlen] at hset'
    refine ⟨⟨h.append hready.count hset hbytes hcol hs fun q hq => hset'.ne hq, ?_⟩, fs₁, bytes, hbytes, hset,
      fun q hq => hset'.ne hq⟩
    exact ⟨k', ⟨bytes', hser, hset'.self⟩, commits_push hL hk hs hmade⟩
  | all _ _ _ _ _ => exact absurd rfl hno

end Left

/-! ### One batch file more that holds no rows -/

section Push

variable {L db} {fs fs₁ fs' : Fs} {r : TableRef} {b b₀ : RecordBatch ρ} {p : Loc Name} {n : ℕ}
  {e : TableLog ρ} {idx : List ℕ} {bytes : Bytes} {s : Schema}

/-- Every batch read has the table's schema. -/
theorem Batches.schema_of_batchAt (h : Batches L fs p e idx) (hL : L.Lawful) {c : Name}
    (hc : isParquet c = true) (hb : BatchAt L fs p c b₀) : b₀.schema = e.schema := by
  obtain ⟨-, bytes, hfile, hof⟩ := hb
  obtain ⟨i, hi, rfl⟩ := h.only c bytes hc hfile
  obtain ⟨j, hj, rfl⟩ := List.getElem_of_mem hi
  have hlt : j < e.files.length := by rw [← h.files.length_eq]; exact hj
  obtain ⟨bytes', hw, hfile'⟩ := h.files.get hj hlt
  rw [List.get_eq_getElem] at hfile'
  rw [hfile] at hfile'
  obtain rfl : bytes = bytes' := by simpa using hfile'
  rw [((batchOf_write hL hw).mp hof).2, List.get_eq_getElem]
  exact h.schema_of_mem (List.getElem_mem hlt)

/-- The new name goes somewhere between the old ones. -/
theorem parquetNames_push (hset : fs.Sets p (batchName n) bytes fs₁)
    (hnone : fs.lookup (p ++ [batchName n]) = none)
    (hother : ∀ q, q ≠ p ++ [commitName] → fs'.lookup q = fs₁.lookup q) :
    ∃ l₁ l₂, parquetNames fs p = l₁ ++ l₂ ∧ parquetNames fs' p = l₁ ++ batchName n :: l₂ := by
  have hlook : ∀ c, isParquet c = true →
      fs'.lookup (p ++ [c]) = if c = batchName n then some (.file bytes) else fs.lookup (p ++ [c]) := by
    intro c hc
    rw [hother _ (by
      intro heq
      obtain rfl : c = commitName := by simpa using heq
      rw [isParquet_commitName] at hc
      simp at hc), hset.lookup]
    simp
  have hperm : (parquetNames fs' p).Perm (batchName n :: parquetNames fs p) := by
    rw [List.perm_ext_iff_of_nodup (nodup_parquetNames _ _) (List.nodup_cons.mpr
      ⟨fun hmem => (mem_parquetNames.mp hmem).2 hnone, nodup_parquetNames _ _⟩)]
    intro c
    rw [List.mem_cons, mem_parquetNames, mem_parquetNames]
    by_cases hc : isParquet c = true
    · rw [hlook c hc]
      by_cases hcn : c = batchName n <;> simp [hcn, isParquet_batchName, hc]
    · have : c ≠ batchName n := by rintro rfl; exact hc (isParquet_batchName n)
      simp [hc, this]
  exact sorted_insert (sorted_pairwise _) (sorted_pairwise _) hperm

/-- Data was read, so every batch file in the directory can be. -/
theorem parquetSchema_of_data (hr : r.Parsed) {d : RecordBatch ρ} (h : (tableData L db r).eval fs = .ok d) {c : Name}
    (hc : isParquet c = true) {bytes : Bytes} (hfile : fs.lookup ((db.tableDir r).loc ++ [c]) = some (.file bytes)) :
    L.parquetSchema bytes ≠ none := by
  obtain ⟨-, -, _, bs, -, hbs, -⟩ := (eval_tableData_ok hr).mp h
  obtain ⟨i, hi, rfl⟩ := List.getElem_of_mem (mem_parquetNames.mpr ⟨hc, by rw [hfile]; simp⟩)
  obtain ⟨-, bytes', hb, _, _, hschema, -, -⟩ := hbs.get hi (by rw [← hbs.length_eq]; exact hi)
  rw [List.get_eq_getElem, hfile] at hb
  obtain rfl : bytes = bytes' := by simpa using hb
  rw [hschema]
  simp

/-- One batch file more in data that has not grown holds no rows. -/
theorem Batches.rows_of_unchanged (h : Batches L fs (db.tableDir r).loc (e.push b) idx) (hL : L.Lawful)
    (hr : r.Parsed) (hnul : (db.tableDir r).hasNul = false) (ht : Tidy fs (db.tableDir r).loc)
    (hread : (tableData L db r).eval fs = .ok e.readBack) : b.rows = [] := by
  have hcol := h.columns_of_data hL hr hread
  have heq := hread.symm.trans (h.eval_tableData hL hr hnul hcol ht)
  have hlen := congrArg (fun d : RecordBatch ρ => d.rows.length) (Outcome.ok.inj heq)
  simp only [e.readBack_perm.length_eq, (e.push b).readBack_perm.length_eq, TableLog.content_push_rows,
    List.length_append] at hlen
  exact List.eq_nil_of_length_eq_zero (by omega)

/-- **A batch file without rows does not change what is read**, whether that is data or an error. -/
theorem Batches.eval_tableData_push (h : Batches L fs (db.tableDir r).loc e idx) (hL : L.Lawful)
    (hr : r.Parsed) (hfirst : FirstSchema L fs (db.tableDir r).loc s)
    (hn : n = (parquetNames fs (db.tableDir r).loc).length)
    (hset : fs.Sets (db.tableDir r).loc (batchName n) bytes fs₁) (hbytes : L.writeParquet b = some bytes)
    (hs : b.schema = e.schema) (hrows : b.rows = [])
    (hother : ∀ q, q ≠ (db.tableDir r).loc ++ [commitName] → fs'.lookup q = fs₁.lookup q) :
    (tableData L db r).eval fs' = (tableData L db r).eval fs := by
  have hdir := tableDir_straight db hr
  have h' := h.append hn hset hbytes (h.firstSchema hL hfirst).1 hs hother
  obtain ⟨hcol, rfl⟩ := h.firstSchema hL hfirst
  have hnone := h.fresh hn hset.notDir
  obtain ⟨l₁, l₂, hl, hl'⟩ := parquetNames_push hset hnone hother
  have hreader : ∀ first : List Path × Schema, (do
      let batches ← first.1.mapM (readBatch L)
      Prog.ofOption .arrow (L.concatBatches first.2 batches) : Io DbError _).Reader := fun _ =>
    (Prog.Reader.mapM (reader_readBatch L) _).bind fun _ => Prog.Reader.ofOption _ _
  rw [tableData_eq, eval_ifPresent ((reader_firstSchema L _).bind hreader),
    eval_ifPresent ((reader_firstSchema L _).bind hreader)]
  by_cases hnul : (db.tableDir r).hasNul = true
  · rw [present, present, hnul]
    rfl
  rw [Bool.not_eq_true] at hnul
  rw [present_of_dir hr hnul h.isDir, present_of_dir hr hnul h'.isDir, if_pos rfl, if_pos rfl,
    (reader_firstSchema L _).eval_bind hreader, (reader_firstSchema L _).eval_bind hreader,
    (eval_firstSchema_ok L hdir).mpr ⟨hnul, h.isDir, rfl, hfirst⟩,
    (eval_firstSchema_ok L hdir).mpr ⟨hnul, h'.isDir, rfl, h'.firstSchema_of_head hL hcol ?_⟩]
  swap
  · intro c hc
    rw [hl'] at hc
    rcases List.mem_append.mp hc with hc | hc
    · exact (h.head hfirst).2 c (by rw [hl]; simp [hc])
    · rcases List.mem_cons.mp hc with rfl | hc
      · exact numbered_zero_le _ (by decide) n
      · exact (h.head hfirst).2 c (by rw [hl]; simp [hc])
  simp only [hl, hl', List.map_append, List.map_cons, TableLog.push_schema]
  have hsame : ∀ path ∈ l₁.map (entryPath (db.tableDir r)) ++ l₂.map (entryPath (db.tableDir r)),
      (readBatch L path).eval fs' = (readBatch L path).eval fs := by
    intro path hpath
    rw [← List.map_append, ← hl, List.mem_map] at hpath
    obtain ⟨c, hc, rfl⟩ := hpath
    obtain ⟨hparq, hlook⟩ := mem_parquetNames.mp hc
    have hnode : node fs' (entryPath (db.tableDir r) c) = node fs (entryPath (db.tableDir r) c) := by
      have hdd := ne_dotdot_of_isParquet hparq
      rw [node_entryPath _ hdir hdd, node_entryPath _ hdir hdd, hother _ ?_, hset.ne ?_]
      · intro heq
        obtain rfl : c = batchName n := by simpa using heq
        exact hlook hnone
      · intro heq
        obtain rfl : c = commitName := by simpa using heq
        rw [isParquet_commitName] at hparq
        simp at hparq
    exact (lockstep_readBatch (R := fun fs fs' => node fs _ = node fs' _) fun _ _ h => h).eval hnode
  have hnew : (readBatch L (entryPath (db.tableDir r) (batchName n))).eval fs' = .ok b := by
    rw [eval_readBatch_entry L hdir hnul (ne_dotdot_of_isParquet (isParquet_batchName n))]
    refine BatchFile.at hL ⟨bytes, hbytes, ?_⟩ (hs ▸ hcol)
    rw [hother _ (by simpa using batchName_ne_commitName n), hset.self]
  rw [(Prog.Reader.mapM (reader_readBatch L) _).eval_bind fun _ => Prog.Reader.ofOption _ _,
    (Prog.Reader.mapM (reader_readBatch L) _).eval_bind fun _ => Prog.Reader.ofOption _ _]
  by_cases hok : ∃ bs, ((l₁.map (entryPath (db.tableDir r)) ++ l₂.map (entryPath (db.tableDir r))).mapM
      (readBatch L)).eval fs = .ok bs
  · obtain ⟨bs, hbs⟩ := hok
    obtain ⟨bs₁, bs₂, rfl, hbs'⟩ := Prog.Reader.eval_mapM_insert_ok (reader_readBatch L) hsame hnew hbs
    have hschemas : ∀ b' ∈ bs₁ ++ bs₂, b'.schema = e.schema := by
      rw [Prog.Reader.eval_mapM_ok (reader_readBatch L), ← List.map_append, ← hl,
        List.forall₂_map_left_iff] at hbs
      intro b' hb'
      obtain ⟨i, hi, rfl⟩ := List.getElem_of_mem hb'
      have hget := hbs.get (i := i) (by rw [hbs.length_eq]; exact hi) hi
      have hparq := (mem_parquetNames.mp (List.get_mem (parquetNames fs (db.tableDir r).loc)
        ⟨i, by rw [hbs.length_eq]; exact hi⟩)).1
      exact h.schema_of_batchAt hL hparq
        ((eval_readBatch_entry L hdir hnul (ne_dotdot_of_isParquet hparq)).mp hget)
    rw [hbs, hbs']
    simp only []
    rw [hL.concatBatches_eq _ _ hschemas, hL.concatBatches_eq]
    · simp [RecordBatch.concat, hrows, Prog.eval]
    · intro b' hb'
      simp only [List.mem_append, List.mem_cons] at hb' hschemas
      rcases hb' with hb' | rfl | hb'
      · exact hschemas b' (Or.inl hb')
      · exact hs
      · exact hschemas b' (Or.inr hb')
  · rw [Prog.Reader.eval_mapM_insert_stop (reader_readBatch L) hsame hnew fun bs hbs => hok ⟨bs, hbs⟩]
    rcases hm : ((l₁.map (entryPath (db.tableDir r)) ++ l₂.map (entryPath (db.tableDir r))).mapM
      (readBatch L)).eval fs with bs | _ | _ | _
    · exact absurd ⟨bs, hm⟩ hok
    all_goals rfl

/-- The commitment of a stored log is the commitment of its content. -/
theorem Stored.commitmentAt_iff (h : Stored L fs p e idx) (hL : L.Lawful) {k : κ} :
    CommitmentAt L fs p k ↔ L.Commits k e.content := by
  obtain ⟨k₀, hk₀, setup₀, hc₀⟩ := h.commitment
  constructor
  · intro hk
    rw [hk.unique (hk₀.at hL)]
    exact ⟨setup₀, hc₀⟩
  · rintro ⟨setup, hc⟩
    rw [hL.commits_agree _ _ _ _ _ hc hc₀]
    exact hk₀.at hL

/-- A read of a table whose path holds a NUL finds nothing. -/
theorem eval_ifPresent_of_hasNul {α : Type} {m : Io DbError α} (hm : m.Reader)
    (hnul : (db.tableDir r).hasNul = true) :
    (do
      let present ← Disk.pathExists (db.tableDir r)
      if !present then Prog.fail (.notFound r) else m : Io DbError α).eval fs = .err (.notFound r) := by
  rw [eval_ifPresent hm, present, hnul]
  rfl

theorem Stored.eval_tableCommitment_congr {e' : TableLog ρ} {idx' : List ℕ}
    (h : Stored L fs (db.tableDir r).loc e idx) (h' : Stored L fs' (db.tableDir r).loc e' idx')
    (hL : L.Lawful) (hr : r.Parsed) (hsame : e'.content = e.content) :
    (tableCommitment L db r).eval fs' = (tableCommitment L db r).eval fs := by
  by_cases hnul : (db.tableDir r).hasNul = true
  · rw [tableCommitment, eval_ifPresent_of_hasNul (reader_readCommitment L _) hnul,
      eval_ifPresent_of_hasNul (reader_readCommitment L _) hnul]
  rw [Bool.not_eq_true] at hnul
  obtain ⟨k, -, hk⟩ := h.commitment
  rw [(eval_tableCommitment_ok hr).mpr ⟨present_of_dir hr hnul h.isDir, (h.commitmentAt_iff hL).mpr hk⟩,
    (eval_tableCommitment_ok hr).mpr ⟨present_of_dir hr hnul h'.isDir,
      (h'.commitmentAt_iff hL).mpr (hsame ▸ hk)⟩]

end Push

/-! ### One insert -/

section Insert

variable {L db} {fs : Fs} {r : TableRef} {b : RecordBatch ρ} {setup : σ} {fates : List Fate}
  {o : Outcome DbError Unit} {w' : World Fs (Loc Name)} {cat : Loc Name → Option (TableLog ρ)}

theorem unchanged_of_tables {fs' : Fs}
    (h : ∀ r : TableRef, r.Parsed → fs.lookup (db.tableDir r).loc = some .dir →
      (tableData L db r).eval fs' = (tableData L db r).eval fs ∧
        (tableCommitment L db r).eval fs' = (tableCommitment L db r).eval fs) : Unchanged L db fs fs' :=
  fun _ hrs => ⟨eval_keyed_congr (fun r => reader_tableData L r) fun r hr => (h r (hrs r hr).1 (hrs r hr).2).1,
    eval_keyed_congr (fun r => reader_tableCommitment L r) fun r hr => (h r (hrs r hr).1 (hrs r hr).2).2⟩

/-- The rows of every log stay as they were. -/
def SameRows (cat cat' : Loc Name → Option (TableLog ρ)) : Prop :=
  ∀ p, (cat' p).map (fun e => e.content.rows) = (cat p).map fun e => e.content.rows

/-- **A clean insert that stops leaves nothing behind**: every table reads as before, and every log has
its rows. -/
theorem Inv.insert_clean (hL : L.Lawful) (h : Inv L (fun _ => True) fs cat) (hr : r.Parsed)
    (hl : Lossless fates) (hrun : Db.insert L db r b setup ⟨fs, fates, []⟩ = (o, w')) (ho : o ≠ .ok ())
    (hclean : Clean L db fs r b setup fates) :
    Unchanged L db fs w'.state ∧ ∃ cat', Inv L (fun _ => True) w'.state cat' ∧ SameRows cat cat' := by
  rcases insert_cases (w := ⟨fs, fates, []⟩) hr hl hrun with ⟨hsame, -⟩ | ⟨n, k, hpres, hready, hgo, hleft⟩
  · rw [hsame]
    exact ⟨fun _ _ => ⟨rfl, rfl⟩, cat, h, fun _ => rfl⟩
  have hharm := hclean.resolve_left (hready.begun hpres hgo hleft.free)
  obtain ⟨e, idx, hcat, hs⟩ := h.logged trivial hready
  obtain ⟨hs', fs₁, bytes, hbytes, hset, hother⟩ := hs.harmless hL hready hleft ho hharm
  have hcontent : (e.push b).content = e.content := content_push_nil hharm.rows
  refine ⟨unchanged_of_tables fun r' hr' hd => ?_, _, h.update (fun q hq => hleft.kept hq) hs', fun q => ?_⟩
  · by_cases hq : (db.tableDir r').loc = (db.tableDir r).loc
    · rw [← hq] at hs hs' hset hother hready
      exact ⟨hs.eval_tableData_push hL hr' hready.first hready.count hset hbytes (hs.ready hL hready).1
        hharm.rows hother, hs.eval_tableCommitment_congr hs' hL hr' hcontent⟩
    · have hsame : SameTable L db r' _ _ := (hleft.sameDir_of_isDir hq hd).sameTable hr'
      exact ⟨hsame.data.symm, hsame.commitment.symm⟩
  · by_cases hq : q = (db.tableDir r).loc
    · subst hq
      rw [Function.update_self, hcat, Option.map_some, Option.map_some, hcontent]
    · rw [Function.update_of_ne hq]

/-- **Only a clean insert leaves a tidy table as it was.** -/
theorem Inv.clean_of_unchanged (hL : L.Lawful) (h : Inv L (fun _ => True) fs cat) (hr : r.Parsed)
    (hl : Lossless fates) (hrun : Db.insert L db r b setup ⟨fs, fates, []⟩ = (o, w')) (ho : o ≠ .ok ())
    (ht : Tidy fs (db.tableDir r).loc) (hun : Unchanged L db fs w'.state) :
    Clean L db fs r b setup fates := by
  by_contra hno
  rw [Clean, not_or] at hno
  obtain ⟨hbegun, hharm⟩ := hno
  rw [NotBegun, not_or, not_or] at hbegun
  obtain ⟨hpres, hgo, hfree⟩ := hbegun
  simp only [not_forall, not_exists, not_and, not_not, exists_prop] at hpres hgo
  obtain ⟨hpres, n, k, hready⟩ := hpres
  rw [← hready.count] at hfree
  have hgo' : ∀ f ∈ fates.take 4, f.stops = false := fun f hf => by simpa using hgo f hf
  have hleft := insert_left (w := ⟨fs, fates, []⟩) hr hl hpres hready hgo' hfree hrun
  obtain ⟨e, idx, -, hs⟩ := h.logged trivial hready
  have hnul := noNul_of_present hpres
  have ht' : Tidy w'.state (db.tableDir r).loc := fun c hc hd => ht c hc ((hleft.isDir_iff _).mp hd)
  obtain ⟨hdata, hcommit⟩ := hun [r] (by simpa using ⟨hr, hready.isDir⟩)
  obtain ⟨hcol, hschema⟩ := hs.firstSchema hL hready.first
  have hread : (tableData L db r).eval w'.state = .ok e.readBack := by
    rw [← eval_data_singleton, hdata, eval_data_singleton]
    exact hs.eval_tableData hL hr hnul hcol ht
  -- the new batch file is read, so it is whole
  have hnew : ∀ bytes, w'.state.lookup ((db.tableDir r).loc ++ [batchName n]) = some (.file bytes) →
      L.parquetSchema bytes ≠ none := fun bytes => parquetSchema_of_data hr hread (isParquet_batchName n)
  -- and holds no rows, since the data has not grown
  have hempty : Batches L w'.state (db.tableDir r).loc (e.push b) (idx ++ [n]) → b.rows = [] := fun hb =>
    hb.rows_of_unchanged hL hr hnul ht' hread
  cases hleft with
  | noParquet _ _ hset => exact hnew _ hset.self hL.parquetSchema_nil
  | @partBatch _ _ bytes cut _ hb hcut hset =>
    rw [List.drop_drop] at hcut
    have hlen : bytes.length ≤ cut := by
      by_contra hlt
      exact hnew _ hset.self (hL.parquetSchema_take b bytes cut hb (by omega))
    rw [List.take_of_length_le hlen] at hset
    refine hharm ⟨hempty (hs.append hready.count hset hb hcol hschema fun _ _ => rfl), ⟨bytes, hb, ?_⟩, ?_⟩
    · intro cut' hcut'
      rwa [← hcut.unique hcut']
    · intro _ _ _ _ _ _ hwhole
      exact absurd hcut (hwhole cut)
  | @batchOnly _ _ bytes _ hb hwhole hset hwhy =>
    rw [List.drop_drop] at hwhole hwhy
    refine hharm ⟨hempty (hs.append hready.count hset hb hcol hschema fun _ _ => rfl),
      ⟨bytes, hb, fun cut hcut => absurd hcut (hwhole cut)⟩, ?_⟩
    intro k₁ k' bytes' hk₁ hmade hser _ hopen
    rw [hk₁.unique hready.commitment] at hmade
    rcases hwhy k' bytes' hmade hser with hstop | hdir
    · rw [hopen] at hstop
      simp at hstop
    · obtain ⟨bytes₀, _, hfile, -⟩ := hready.commitment
      rw [hfile] at hdir
      simp at hdir
  | @partCommit _ _ bytes fs₁ k' bytes' cut _ hb hwhole hset hmade hser hopen hcut hset' =>
    rw [List.drop_drop] at hwhole hcut
    refine hharm ⟨hempty (hs.append hready.count hset hb hcol hschema fun q hq => hset'.ne hq),
      ⟨bytes, hb, fun cut hcut => absurd hcut (hwhole cut)⟩, ?_⟩
    intro k₁ k₂ bytes₂ hk₁ hmade₂ hser₂ _ _ cut' hcut'
    obtain rfl := hcut.unique hcut'
    rw [hk₁.unique hready.commitment, hmade] at hmade₂
    obtain rfl := Except.ok.inj hmade₂
    obtain rfl := Option.some.inj (hser.symm.trans hser₂)
    -- the commitment is still read, so its file is whole
    by_contra hlt
    have hk := (eval_tableCommitment_ok (L := L) hr).mpr ⟨hpres, hready.commitment⟩
    rw [← eval_commitments_singleton, ← hcommit, eval_commitments_singleton, eval_tableCommitment_ok hr] at hk
    obtain ⟨-, bytes₃, m, hfile, hde⟩ := hk
    rw [hset'.self] at hfile
    obtain rfl : bytes'.take cut = bytes₃ := by simpa using hfile
    rw [hL.deserialize_take k' bytes' cut hser (by omega)] at hde
    simp at hde
  | all _ _ _ _ _ => exact ho rfl

/-- **An insert that went through leaves data and commitment in step** unless a directory in the table is
called like a batch. -/
theorem Inv.inStep_iff (hL : L.Lawful) (h : Inv L (fun _ => True) fs cat) (hr : r.Parsed)
    (hl : Lossless fates) (hrun : Db.insert L db r b setup ⟨fs, fates, []⟩ = (.ok (), w')) {rows : List ρ}
    (hrows : ∀ e, cat (db.tableDir r).loc = some e → e.content.rows ++ b.rows = rows) :
    InStep L db w'.state r rows ↔ Tidy fs (db.tableDir r).loc := by
  have hdirs := insert_isDir_iff (w := ⟨fs, fates, []⟩) hr hl hrun
  constructor
  · rintro ⟨⟨d, hd, -⟩, -⟩
    exact fun c hc hdir => tidy_of_data hr hd c hc ((hdirs _).mpr hdir)
  · intro ht
    have ht' : Tidy w'.state (db.tableDir r).loc := fun c hc hd => ht c hc ((hdirs _).mp hd)
    rcases insert_cases (w := ⟨fs, fates, []⟩) hr hl hrun with ⟨-, ho⟩ | ⟨n, k, hpres, hready, -, -⟩
    · exact absurd rfl ho
    have hnul := noNul_of_present hpres
    obtain ⟨e₀, idx₀, hcat₀, hs₀⟩ := h.logged trivial hready
    have hcol := (hs₀.firstSchema hL hready.first).1
    obtain ⟨e, hcat, -, hinv⟩ := Inv.insert (w := ⟨fs, fates, []⟩) hL h hr hl trivial hrun
    obtain ⟨idx, hs⟩ := hinv.stored _ _ trivial (Function.update_self ..)
    obtain ⟨k', hk', hc⟩ := hs.commitment
    have hsame : (e.push b).content.rows = rows := by rw [TableLog.content_push_rows, hrows e hcat]
    obtain rfl := Option.some.inj (hcat₀.symm.trans hcat)
    exact ⟨⟨_, hs.eval_tableData hL hr hnul hcol ht', hsame ▸ (e₀.push b).readBack_perm⟩, k', _,
      (eval_tableCommitment_ok hr).mpr ⟨present_of_dir hr hnul hs.isDir, hk'.at hL⟩, hc, hsame⟩

end Insert

/-! ### Runs of clean inserts -/

/-- Every log holds the rows that the history has inserted into its directory. -/
def Tallied (hist : List (Event ρ σ)) (fs : Fs) : Prop :=
  ∃ cat, Inv L (fun _ => True) fs cat ∧ ∀ p,
    ((cat p).map fun e => e.content.rows).getD [] = (insertedAt db hist p).flatMap RecordBatch.rows

section Runs

variable {L db} {fs fs' : Fs} {hist : List (Event ρ σ)} {e : Event ρ σ}

theorem insertedAt_concat (hist : List (Event ρ σ)) (e : Event ρ σ) (p : Loc Name) :
    insertedAt db (hist ++ [e]) p = insertedAt db hist p ++ (e.insertedAt db p).toList := by
  rw [insertedAt, List.filterMap_append]
  rcases h : e.insertedAt db p with _ | b <;> simp [insertedAt, h]

theorem Tallied.step (hL : L.Lawful) (h : Tallied L db hist fs) (hrefs : ∀ r ∈ e.call.refs, r.Parsed)
    (hstep : CleanStep L db fs e fs') : Tallied L db (hist ++ [e]) fs' := by
  obtain ⟨cat, hinv, htally⟩ := h
  obtain ⟨hstep, hclean⟩ := hstep
  -- a step that inserts nothing and keeps the rows of every log
  have hskip : ∀ cat', Inv L (fun _ => True) fs' cat' → SameRows cat cat' →
      (∀ p, e.insertedAt db p = none) → Tallied L db (hist ++ [e]) fs' := by
    intro cat' hinv' hsame hnone
    refine ⟨cat', hinv', fun p => ?_⟩
    rw [hsame p, htally p, insertedAt_concat, hnone p, Option.toList_none, List.append_nil]
  have hread : (∀ r s setup, e.call ≠ .createTable r s setup) →
      (∀ r b setup, e.call ≠ .insert r b setup) → (∀ p, e.insertedAt db p = none) →
      Tallied L db (hist ++ [e]) fs' := by
    intro h1 h2 hnone
    obtain ⟨k, rfl⟩ := hstep.mkdirs_of_read ⟨h1, h2⟩
    exact hskip cat (hinv.frame fun q _ => Kept.mkdirs _ _ _ q) (fun _ => rfl) hnone
  obtain ⟨call, fates, outcome⟩ := e
  cases call with
  | createTable r s setup =>
    obtain ⟨hl, w', hrun, rfl⟩ := hstep
    have hr : r.Parsed := hrefs r (by simp [Call.refs])
    rcases hinv.createTable (w := ⟨fs, fates, []⟩) hL hr hl hrun with ⟨-, hinv'⟩ | ⟨hmiss, -, hinv'⟩
    · exact hskip cat hinv' (fun _ => rfl) fun _ => rfl
    · refine ⟨_, hinv', fun p => ?_⟩
      rw [insertedAt_concat, show Event.insertedAt db p _ = none from rfl, Option.toList_none,
        List.append_nil, ← htally p]
      by_cases hp : p = (db.tableDir r).loc
      · rw [hp, Function.update_self, hinv.none_of_missing trivial hmiss]
        rfl
      · rw [Function.update_of_ne hp]
  | insert r b setup =>
    have hr : r.Parsed := hrefs r (by simp [Call.refs])
    by_cases ho : outcome = .ok ()
    · subst ho
      obtain ⟨hl, w', hrun, rfl⟩ := hstep
      obtain ⟨l, hcat, -, hinv'⟩ := hinv.insert (w := ⟨fs, fates, []⟩) hL hr hl trivial hrun
      refine ⟨_, hinv', fun p => ?_⟩
      rw [insertedAt_concat, List.flatMap_append, ← htally p]
      by_cases hp : p = (db.tableDir r).loc
      · subst hp
        simp [Event.insertedAt, hcat, TableLog.content_push_rows]
      · rw [Function.update_of_ne hp]
        simp [Event.insertedAt, Ne.symm hp]
    · have hc := hclean r b setup rfl ho
      obtain ⟨hl, w', hrun, rfl⟩ := hstep
      obtain ⟨-, cat', hinv', hsame⟩ := hinv.insert_clean hL hr hl hrun ho hc
      refine hskip cat' hinv' hsame fun p => ?_
      rcases outcome with u | _ | _ | _
      · exact absurd rfl ho
      all_goals rfl
  | openAt => exact hread (by simp) (by simp) fun _ => rfl
  | data rs => exact hread (by simp) (by simp) fun _ => rfl
  | schema r => exact hread (by simp) (by simp) fun _ => rfl
  | commitments rs => exact hread (by simp) (by simp) fun _ => rfl
  | tables => exact hread (by simp) (by simp) fun _ => rfl

/-- **Logs and history agree along every run of clean inserts.** -/
theorem Tallied.run (hL : L.Lawful) (hnone : ∀ p, Unlogged L fs p)
    (hrun : Runs (CleanStep L db) fs hist fs') (hrefs : ∀ e ∈ hist, ∀ r ∈ e.call.refs, r.Parsed) :
    Tallied L db hist fs' :=
  hrun.invariant (P := Tallied L db) (A := fun e => ∀ r ∈ e.call.refs, TableRef.Parsed r) hrefs
    ⟨fun _ => none, ⟨by simp, fun p _ _ => hnone p⟩, fun _ => rfl⟩
    fun _ _ _ _ hA hP hstep => hP.step hL hA hstep

/-- **When inserts are all or nothing.**  After a run in which every insert that stopped was clean, an
insert that stops leaves every table as it was if it is clean, and in a tidy table only then; and one that
goes through leaves data and commitment describing the same rows exactly if the table is tidy. -/
theorem insert_all_or_nothing_iff (hL : L.Lawful) {dir : Loc Name} {fs₀ : Fs} {fates : List Fate}
    {w : World Fs (Loc Name)} (hl : Lossless fates) (hempty : ∀ p, Unlogged L fs₀ p)
    (hopen : openAt dir ⟨fs₀, fates, []⟩ = (.ok db, w)) (hrun : Runs (CleanStep L db) w.state hist fs)
    (hrefs : ∀ e ∈ hist, ∀ r ∈ e.call.refs, r.Parsed) {r : TableRef} {b : RecordBatch ρ} {setup : σ}
    (hr : r.Parsed) (hcall : e.call = .insert r b setup) (hstep : Step L db fs e fs') :
    (e.outcome ≠ .ok () →
      (Clean L db fs r b setup e.fates → Unchanged L db fs fs') ∧
      (Tidy fs (db.tableDir r).loc → Unchanged L db fs fs' → Clean L db fs r b setup e.fates)) ∧
    (e.outcome = .ok () →
      (InStep L db fs' r ((insertedAt db (hist ++ [e]) (db.tableDir r).loc).flatMap RecordBatch.rows) ↔
        Tidy fs (db.tableDir r).loc)) := by
  have hnone : ∀ p, Unlogged L w.state p := by
    intro p
    rw [openAt, Prog.bind_eq_ok] at hopen
    obtain ⟨_, w₁, hmake, hpure⟩ := hopen
    rw [Prog.pure_run, Prod.mk.injEq] at hpure
    obtain ⟨-, rfl⟩ := hpure
    obtain ⟨-, -, -, -, rfl⟩ := (Disk.createDirAll_ok (w := ⟨fs₀, fates, []⟩) hl).mp hmake
    exact (hempty p).frame (Kept.mkdirs _ _ _ _)
  obtain ⟨cat, hinv, htally⟩ := Tallied.run hL hnone hrun hrefs
  obtain ⟨call, fates', outcome⟩ := e
  obtain rfl : call = .insert r b setup := hcall
  obtain ⟨hl', w', hins, rfl⟩ := hstep
  refine ⟨fun ho => ⟨fun hc => (hinv.insert_clean hL hr hl' hins ho hc).1, fun ht hun =>
    hinv.clean_of_unchanged hL hr hl' hins ho ht hun⟩, ?_⟩
  intro ho
  obtain rfl : outcome = .ok () := ho
  refine hinv.inStep_iff hL hr hl' hins fun l hcat => ?_
  rw [insertedAt_concat, List.flatMap_append, ← htally, hcat]
  simp [Event.insertedAt]

end Runs

section Sample

open SampleLibs

/-- One row inserted, and one not, since its batch file could not be created. -/
def stoppedEarly : List (Call UInt8 ℕ × List Fate) :=
  [(.createTable people ids 2, []), (.insert people ⟨ids, [1]⟩ 2, []),
    (.insert people ⟨ids, [2]⟩ 2, [.ok, .ok, .ok, .fail 0])]

def stoppedRun : List (Event UInt8 ℕ) × Fs := play libs ⟨home⟩ sampleStart stoppedEarly

/-- The next insert. -/
def nextInsert : World Fs (Loc Name) := (insert libs ⟨home⟩ people ⟨ids, [3]⟩ 2 ⟨stoppedRun.2, [], []⟩).2

theorem insert_all_or_nothing_iff_sample :
    InStep libs ⟨home⟩ nextInsert.state people
        ((insertedAt ⟨home⟩ (stoppedRun.1 ++ [⟨.insert people ⟨ids, [3]⟩ 2, [], .ok ()⟩])
          ((⟨home⟩ : Db).tableDir people).loc).flatMap RecordBatch.rows) ↔
      Tidy stoppedRun.2 ((⟨home⟩ : Db).tableDir people).loc := by
  have hearly : ∀ e ∈ stoppedRun.1, e.outcome = .ok () ∨ ∃ f ∈ e.fates.take 4, f.stops = true := by decide +kernel
  have hrun : Runs (CleanStep libs ⟨home⟩) sampleStart stoppedRun.1 stoppedRun.2 :=
    (runs_play libs ⟨home⟩ (by simp [stoppedEarly, Lossless]) _).imp fun _ e _ he hs =>
      ⟨hs, fun _ _ _ _ ho => Or.inl (Or.inr (Or.inl ((hearly e he).resolve_left ho)))⟩
  have hnext : insert libs ⟨home⟩ people ⟨ids, [3]⟩ 2 ⟨stoppedRun.2, [], []⟩ = (.ok (), nextInsert) :=
    Prod.ext (by decide +kernel) rfl
  have hempty : ∀ p, Unlogged libs (FileTree.empty : Fs) p := fun p =>
    Or.inl fun c bytes _ h => by rw [FileTree.lookup_empty (by simp)] at h; simp at h
  have hopen : openAt home ⟨FileTree.empty, [], []⟩ = (.ok ⟨home⟩, ⟨sampleStart, [], _⟩) := rfl
  exact (insert_all_or_nothing_iff (e := ⟨.insert people ⟨ids, [3]⟩ 2, [], .ok ()⟩) libs_lawful Lossless.nil
    hempty hopen hrun (by decide) (by decide) rfl ⟨Lossless.nil, _, hnext, rfl⟩).2 rfl

/-- One row inserted. -/
def oneRow : Fs := (play libs ⟨home⟩ sampleStart
  [(.createTable people ids 1, []), (.insert people ⟨ids, [1]⟩ 1, [])]).2

/-- A second row, for which the setup has no room: the commitment library panics. -/
def refusedInsert : Outcome DbError Unit × World Fs (Loc Name) :=
  insert libs ⟨home⟩ people ⟨ids, [2]⟩ 1 ⟨oneRow, [], []⟩

/-- An insert after that. -/
def laterInsert : Outcome DbError Unit × World Fs (Loc Name) :=
  insert libs ⟨home⟩ people ⟨ids, []⟩ 1 ⟨refusedInsert.2.state, [], []⟩

/-- **An insert refused by the commitment library leaves its rows in the data**, and the next insert that
goes through does not bring data and commitment back in step. -/
theorem refused_insert_leaves_its_rows :
    refusedInsert.1 = .panic ∧ ¬ Unchanged libs ⟨home⟩ oneRow refusedInsert.2.state ∧
      laterInsert.1 = .ok () ∧ ∀ rows, ¬ InStep libs ⟨home⟩ laterInsert.2.state people rows := by
  have hbefore : (tableData libs ⟨home⟩ people).eval oneRow = .ok ⟨ids, [1]⟩ := by decide +kernel
  have hrefused : (tableData libs ⟨home⟩ people).eval refusedInsert.2.state = .ok ⟨ids, [1, 2]⟩ := by
    decide +kernel
  have hlater : (tableData libs ⟨home⟩ people).eval laterInsert.2.state = .ok ⟨ids, [1, 2]⟩ := by
    decide +kernel
  have hcommit : (tableCommitment libs ⟨home⟩ people).eval laterInsert.2.state = .ok ⟨ids, [1]⟩ := by
    decide +kernel
  refine ⟨by decide +kernel, fun hun => ?_, by decide +kernel, fun rows hin => ?_⟩
  · have hdata := (hun [people] (by decide +kernel)).1
    rw [(eval_data_singleton libs).mpr hbefore, eval_data_singleton, hrefused] at hdata
    simp at hdata
  · obtain ⟨⟨d, hd, hperm⟩, k, content, hk, ⟨setup, hc⟩, hrows⟩ := hin
    rw [hlater] at hd
    rw [hcommit] at hk
    obtain rfl := Outcome.ok.inj hd
    obtain rfl := Outcome.ok.inj hk
    rw [← (commitBatch_eq_ok.mp hc).2.2] at hrows
    have := hperm.length_eq
    rw [← hrows] at this
    simp at this

end Sample

end Db

end SxtEnterprise
