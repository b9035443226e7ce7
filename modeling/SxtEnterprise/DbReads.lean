import SxtEnterprise.Db

/-!
# What the database's reads return

Every read of `Db` is a reading program, so what it returns is a function of the file system.  The
lemmas here say which function, in terms of lookups alone: `parquetNames` is what a table's directory
lists, `BatchAt` and `CommitmentAt` are what a file there decodes to.  Later files use these and unfold no
read again.
-/

namespace SxtEnterprise

open NumberedNames Paths FaultyRun

namespace Db

/-! ### Names -/

theorem isParquet_batchName (i : ℕ) : isParquet (batchName i) = true := by
  have hstem : padded 6 i ≠ [] := by
    intro h
    have := congrArg List.length h
    rw [padded, List.leftpad, List.length_append] at this
    have hpos := Nat.length_toDigits_pos (b := 10) (n := i)
    simp at this
  have hs : batchName i = padded 6 i ++ '.' :: "parquet".toList := rfl
  rw [isParquet, hs, extension_append hstem (Or.inr (by decide)) (by decide)]
  rfl

theorem isParquet_commitName : isParquet commitName = false := by decide

theorem batchName_ne_commitName (i : ℕ) : batchName i ≠ commitName := by
  intro h
  have := isParquet_batchName i
  rw [h, isParquet_commitName] at this
  simp at this

theorem batchName_injective : Function.Injective batchName := numbered_injective _ _

theorem plain_batchName (i : ℕ) : Plain (batchName i) := by
  have hlen : 8 ≤ (batchName i).length := by
    rw [batchName, numbered, List.length_append]
    have : (".parquet".toList).length = 8 := rfl
    omega
  refine ⟨?_, ?_, ?_, ?_⟩
  · intro h; rw [h] at hlen; simp at hlen
  · intro h; rw [h] at hlen; simp at hlen
  · intro h; rw [h] at hlen; simp [dotdot] at hlen
  · intro h
    rw [batchName, numbered, List.mem_append] at h
    rcases h with h | h
    · exact absurd (isDigit_padded h) (by decide)
    · exact absurd h (by decide)

theorem plain_commitName : Plain commitName := by decide

theorem noNul_batchName (i : ℕ) : (batchName i).contains '\x00' = false := by
  rw [Bool.eq_false_iff]
  intro h
  rw [List.contains_iff_mem, batchName, numbered, List.mem_append] at h
  rcases h with h | h
  · exact absurd (isDigit_padded h) (by decide)
  · exact absurd h (by decide)

theorem ne_dotdot_of_isParquet {c : Name} (h : isParquet c = true) : c ≠ dotdot := by
  rintro rfl
  exact absurd h (by decide)

/-! ### Paths of files in a directory -/

section Paths

variable {dir : Path}

theorem hasNul_join {c : Name} (hc : Plain c) :
    (dir.join c).hasNul = (dir.hasNul || c.contains '\x00') := by
  rw [hc.join, Path.hasNul, Path.hasNul, List.any_append]
  simp

theorem hasNul_batchPath (i : ℕ) : (batchPath dir i).hasNul = dir.hasNul := by
  rw [batchPath, hasNul_join (plain_batchName i), noNul_batchName, Bool.or_false]

theorem hasNul_commitPath : (commitPath dir).hasNul = dir.hasNul := by
  rw [commitPath, hasNul_join plain_commitName, show commitName.contains '\x00' = false by decide,
    Bool.or_false]

theorem loc_batchPath (i : ℕ) : (batchPath dir i).loc = dir.loc ++ [batchName i] :=
  (plain_batchName i).join_loc dir

theorem loc_commitPath : (commitPath dir).loc = dir.loc ++ [commitName] := plain_commitName.join_loc dir

theorem entryPath_batchName (i : ℕ) : entryPath dir (batchName i) = batchPath dir i := by
  rw [batchPath, (plain_batchName i).join, entryPath]

theorem loc_entryPath {c : Name} (hc : c ≠ dotdot) : (entryPath dir c).loc = dir.loc ++ [c] := by
  rw [entryPath, Path.loc, List.foldl_append, List.foldl_cons, List.foldl_nil, Path.stepTo, if_neg hc]
  rfl

theorem node_entryPath (fs : Fs) (hdir : dir.Straight) {c : Name} (hc : c ≠ dotdot) :
    node fs (entryPath dir c) = fs.lookup (dir.loc ++ [c]) := by
  have hs : (entryPath dir c).Straight := by
    rw [entryPath, Path.Straight, List.mem_append, List.mem_singleton, not_or]
    exact ⟨hdir, fun h => hc h.symm⟩
  rw [node_straight fs hs, loc_entryPath hc]
  exact endsAs_bare _

end Paths

variable (db : Db)

theorem tableDir_straight {r : TableRef} (h : r.Parsed) : (db.tableDir r).Straight :=
  TableRef.join_straight h (by simp [Path.Straight, Path.ofLoc])

/-- A table's directory under a plain name lies directly in the database's. -/
theorem tableDir_plain {r : TableRef} (h : Plain r.toString) :
    db.tableDir r = ⟨db.dir, [r.toString], .bare⟩ := by
  rw [tableDir, h.join]
  rfl

theorem tableDir_loc_plain {r : TableRef} (h : Plain r.toString) :
    (db.tableDir r).loc = db.dir ++ [r.toString] := by
  rw [tableDir_plain db h, Path.loc, List.foldl_cons, List.foldl_nil, Path.stepTo, if_neg h.ne_dotdot]

/-- A table's directory, as `Path::exists` sees it. -/
def present (fs : Fs) (r : TableRef) : Bool :=
  !(db.tableDir r).hasNul && (node fs (db.tableDir r)).isSome

/-! ### Listings -/

/-- The parquet names in a directory, in the order they are read. -/
def parquetNames (fs : Fs) (p : Loc Name) : List Name := sorted ((fs.children p).filter isParquet)

theorem mem_parquetNames {fs : Fs} {p : Loc Name} {c : Name} :
    c ∈ parquetNames fs p ↔ isParquet c = true ∧ fs.lookup (p ++ [c]) ≠ none := by
  rw [parquetNames, mem_sorted, List.mem_filter, FileTree.mem_children, and_comm]

theorem length_parquetNames_le_nodes (fs : Fs) (p : Loc Name) :
    (parquetNames fs p).length ≤ fs.nodes.keys.length := by
  rw [parquetNames, length_sorted]
  exact (List.length_filter_le _ _).trans (List.length_filterMap_le _ _)

theorem nodup_parquetNames (fs : Fs) (p : Loc Name) : (parquetNames fs p).Nodup :=
  nodup_sorted ((FileTree.nodup_children fs p).filter _)

theorem reader_parquetPaths (dir : Path) : (parquetPaths dir).Reader :=
  Disk.reader_readDir.bind fun _ => Prog.Reader.pure _

theorem eval_parquetPaths_ok {dir : Path} (hdir : dir.Straight) {fs : Fs} {ps : List Path} :
    (parquetPaths dir).eval fs = .ok ps ↔
      dir.hasNul = false ∧ fs.lookup dir.loc = some .dir ∧
        ps = (parquetNames fs dir.loc).map (entryPath dir) := by
  rw [parquetPaths, Disk.reader_readDir.eval_bind_ok fun _ => Prog.Reader.pure _]
  constructor
  · rintro ⟨es, hes, hp⟩
    obtain ⟨hnul, hd, rfl⟩ := (Disk.eval_readDir_ok hdir).mp hes
    change Outcome.ok _ = Outcome.ok _ at hp
    refine ⟨hnul, hd, ?_⟩
    rw [Outcome.ok.injEq, List.filterMap_map] at hp
    rw [← hp, parquetNames]
    simp
  · rintro ⟨hnul, hd, rfl⟩
    refine ⟨_, (Disk.eval_readDir_ok hdir).mpr ⟨hnul, hd, rfl⟩, ?_⟩
    change Outcome.ok _ = Outcome.ok _
    rw [List.filterMap_map, parquetNames]
    simp

/-! ### Files -/

section Files

variable {ρ κ σ : Type} (L : Libs ρ κ σ)

theorem reader_parquetBytes (n : Node Bytes) : (parquetBytes n).Reader := by
  cases n with
  | dir => exact Prog.Reader.fail _
  | file b => exact Prog.Reader.pure _

theorem reader_readSchema (path : Path) : (readSchema L path).Reader :=
  Disk.reader_openFile.bind fun n => (reader_parquetBytes n).bind fun _ => Prog.Reader.ofOption _ _

theorem reader_readBatch (path : Path) : (readBatch L path).Reader :=
  Disk.reader_openFile.bind fun n => (reader_parquetBytes n).bind fun _ =>
    (Prog.Reader.ofOption _ _).bind fun _ => (Prog.Reader.ofOption _ _).bind fun _ =>
      Prog.Reader.ofOption _ _

theorem reader_readCommitment (path : Path) : (readCommitment L path).Reader :=
  Disk.reader_read.bind fun _ => (Prog.Reader.ofOption _ _).bind fun _ => Prog.Reader.pure _

theorem eval_ofOption_ok {ε α : Type} {e : ε} {o : Option α} {fs : Fs} {a : α} :
    (Prog.ofOption e o : Io ε α).eval fs = .ok a ↔ o = some a := by
  rcases o with _ | b <;> simp [Prog.eval, Prog.ofOption]

theorem eval_parquetBytes_ok {n : Node Bytes} {fs : Fs} {b : Bytes} :
    (parquetBytes n).eval fs = .ok b ↔ n = .file b := by
  cases n <;> simp [parquetBytes, Prog.eval]

theorem eval_readSchema_ok {path : Path} {fs : Fs} {s : Schema} :
    (readSchema L path).eval fs = .ok s ↔
      path.hasNul = false ∧ ∃ bytes, node fs path = some (.file bytes) ∧
        L.parquetSchema bytes = some s := by
  rw [readSchema, Disk.reader_openFile.eval_bind_ok fun n =>
    (reader_parquetBytes n).bind fun _ => Prog.Reader.ofOption _ _]
  constructor
  · rintro ⟨n, hn, h⟩
    obtain ⟨hnul, hnode⟩ := Disk.eval_openFile_ok.mp hn
    rw [(reader_parquetBytes n).eval_bind_ok fun _ => Prog.Reader.ofOption _ _] at h
    obtain ⟨b, hb, hs⟩ := h
    rw [eval_parquetBytes_ok] at hb
    exact ⟨hnul, b, by rw [hnode, hb], eval_ofOption_ok.mp hs⟩
  · rintro ⟨hnul, b, hnode, hs⟩
    refine ⟨.file b, Disk.eval_openFile_ok.mpr ⟨hnul, hnode⟩, ?_⟩
    rw [(reader_parquetBytes _).eval_bind_ok fun _ => Prog.Reader.ofOption _ _]
    exact ⟨b, eval_parquetBytes_ok.mpr rfl, eval_ofOption_ok.mpr hs⟩

/-- What a file's bytes read back as. -/
def BatchOf (bytes : Bytes) (b : RecordBatch ρ) : Prop :=
  ∃ schema parts, L.parquetSchema bytes = some schema ∧ L.parquetBatches bytes = some parts ∧
    L.concatBatches schema parts = some b

theorem eval_readBatch_ok {path : Path} {fs : Fs} {b : RecordBatch ρ} :
    (readBatch L path).eval fs = .ok b ↔
      path.hasNul = false ∧ ∃ bytes, node fs path = some (.file bytes) ∧ BatchOf L bytes b := by
  have hr1 : ∀ schema, ∀ parts, (Prog.ofOption DbError.arrow (L.concatBatches schema parts) :
      Io DbError _).Reader := fun _ _ => Prog.Reader.ofOption _ _
  have hr2 : ∀ bytes schema, (do
      let batches ← Prog.ofOption DbError.arrow (L.parquetBatches bytes)
      Prog.ofOption DbError.arrow (L.concatBatches schema batches) : Io DbError _).Reader :=
    fun _ _ => (Prog.Reader.ofOption _ _).bind fun _ => hr1 _ _
  have hr3 : ∀ bytes, (do
      let schema ← Prog.ofOption DbError.parquet (L.parquetSchema bytes)
      let batches ← Prog.ofOption DbError.arrow (L.parquetBatches bytes)
      Prog.ofOption DbError.arrow (L.concatBatches schema batches) : Io DbError _).Reader :=
    fun _ => (Prog.Reader.ofOption _ _).bind fun _ => hr2 _ _
  rw [readBatch, Disk.reader_openFile.eval_bind_ok fun n => (reader_parquetBytes n).bind hr3]
  constructor
  · rintro ⟨n, hn, h⟩
    obtain ⟨hnul, hnode⟩ := Disk.eval_openFile_ok.mp hn
    obtain ⟨bytes, hb, h⟩ := ((reader_parquetBytes n).eval_bind_ok hr3).mp h
    obtain ⟨schema, hs, h⟩ := ((Prog.Reader.ofOption _ _).eval_bind_ok (hr2 bytes)).mp h
    obtain ⟨parts, hp, h⟩ := ((Prog.Reader.ofOption _ _).eval_bind_ok (hr1 schema)).mp h
    rw [eval_parquetBytes_ok] at hb
    exact ⟨hnul, bytes, by rw [hnode, hb], schema, parts, eval_ofOption_ok.mp hs,
      eval_ofOption_ok.mp hp, eval_ofOption_ok.mp h⟩
  · rintro ⟨hnul, bytes, hnode, schema, parts, hs, hp, h⟩
    refine ⟨.file bytes, Disk.eval_openFile_ok.mpr ⟨hnul, hnode⟩, ?_⟩
    refine ((reader_parquetBytes _).eval_bind_ok hr3).mpr ⟨bytes, eval_parquetBytes_ok.mpr rfl, ?_⟩
    refine ((Prog.Reader.ofOption _ _).eval_bind_ok (hr2 bytes)).mpr
      ⟨schema, eval_ofOption_ok.mpr hs, ?_⟩
    exact ((Prog.Reader.ofOption _ _).eval_bind_ok (hr1 schema)).mpr
      ⟨parts, eval_ofOption_ok.mpr hp, eval_ofOption_ok.mpr h⟩

theorem eval_readCommitment_ok {path : Path} {fs : Fs} {c : κ} :
    (readCommitment L path).eval fs = .ok c ↔
      path.hasNul = false ∧ ∃ bytes n, node fs path = some (.file bytes) ∧
        L.deserialize bytes = some (c, n) := by
  have hr : ∀ bytes, (do
      let read ← Prog.ofOption DbError.decode (L.deserialize bytes)
      pure read.1 : Io DbError κ).Reader :=
    fun _ => (Prog.Reader.ofOption _ _).bind fun _ => Prog.Reader.pure _
  rw [readCommitment, Disk.reader_read.eval_bind_ok hr]
  constructor
  · rintro ⟨bytes, hb, h⟩
    obtain ⟨hnul, hnode⟩ := Disk.eval_read_ok.mp hb
    obtain ⟨⟨c', n⟩, hd, hc⟩ := ((Prog.Reader.ofOption _ _).eval_bind_ok
      fun _ => Prog.Reader.pure _).mp h
    change Outcome.ok c' = Outcome.ok c at hc
    rw [Outcome.ok.injEq] at hc
    exact ⟨hnul, bytes, n, hnode, by rw [← hc]; exact eval_ofOption_ok.mp hd⟩
  · rintro ⟨hnul, bytes, n, hnode, hd⟩
    refine ⟨bytes, Disk.eval_read_ok.mpr ⟨hnul, hnode⟩, ?_⟩
    exact ((Prog.Reader.ofOption _ _).eval_bind_ok fun _ => Prog.Reader.pure _).mpr
      ⟨(c, n), eval_ofOption_ok.mpr hd, rfl⟩

/-- What was written is what is read back, if it has a column. -/
theorem batchOf_write {L : Libs ρ κ σ} (hL : L.Lawful) {b : RecordBatch ρ} {bytes : Bytes}
    (h : L.writeParquet b = some bytes) {b' : RecordBatch ρ} :
    BatchOf L bytes b' ↔ b.schema ≠ [] ∧ b' = b := by
  have hread : b.schema ≠ [] → ∃ parts, L.parquetBatches bytes = some parts ∧
      L.concatBatches b.schema parts = some b := by
    intro hb
    obtain ⟨parts, hp, hsame, hcat⟩ := hL.parquetBatches_write b bytes h hb
    exact ⟨parts, hp, by rw [hL.concatBatches_eq b.schema parts hsame, hcat]⟩
  constructor
  · rintro ⟨schema, parts', hs', hp', hc'⟩
    obtain ⟨hb, rfl⟩ := (hL.schema_of_write h).mp hs'
    obtain ⟨parts, hp, hc⟩ := hread hb
    rw [hp] at hp'
    obtain rfl := Option.some.inj hp'
    rw [hc] at hc'
    exact ⟨hb, (Option.some.inj hc').symm⟩
  · rintro ⟨hb, rfl⟩
    obtain ⟨parts, hp, hc⟩ := hread hb
    exact ⟨_, parts, (hL.schema_of_write h).mpr ⟨hb, rfl⟩, hp, hc⟩

end Files

/-! ### The database's reads -/

section Reads

variable {ρ κ σ : Type} (L : Libs ρ κ σ) {db}

/-- The test every operation starts with. -/
theorem eval_ifPresent {α : Type} {m : Io DbError α} (hm : m.Reader) (fs : Fs) (r : TableRef) :
    (do
      let present ← Disk.pathExists (db.tableDir r)
      if !present then Prog.fail (.notFound r) else m : Io DbError α).eval fs
      = if db.present fs r then m.eval fs else .err (.notFound r) := by
  rw [Disk.reader_pathExists.eval_bind fun b => by
    cases b
    · exact Prog.Reader.fail _
    · exact hm]
  rw [Disk.eval_pathExists, present]
  rcases (!(db.tableDir r).hasNul && (node fs (db.tableDir r)).isSome) with _ | _ <;> rfl

theorem reader_ifPresent {α : Type} {m : Io DbError α} (hm : m.Reader) (r : TableRef) :
    (do
      let present ← Disk.pathExists (db.tableDir r)
      if !present then Prog.fail (.notFound r) else m : Io DbError α).Reader :=
  Disk.reader_pathExists.bind fun b => by
    cases b
    · exact Prog.Reader.fail _
    · exact hm

/-- The file `c` in `p` has the schema `s`. -/
def SchemaAt (fs : Fs) (p : Loc Name) (c : Name) (s : Schema) : Prop :=
  c.contains '\x00' = false ∧ ∃ bytes, fs.lookup (p ++ [c]) = some (.file bytes) ∧
    L.parquetSchema bytes = some s

/-- The file `c` in `p` reads back as `b`. -/
def BatchAt (fs : Fs) (p : Loc Name) (c : Name) (b : RecordBatch ρ) : Prop :=
  c.contains '\x00' = false ∧ ∃ bytes, fs.lookup (p ++ [c]) = some (.file bytes) ∧ BatchOf L bytes b

/-- The commitment in `p` decodes to `c`. -/
def CommitmentAt (fs : Fs) (p : Loc Name) (c : κ) : Prop :=
  ∃ bytes n, fs.lookup (p ++ [commitName]) = some (.file bytes) ∧ L.deserialize bytes = some (c, n)

/-- The schema of the file that sorts first in `p`. -/
def FirstSchema (fs : Fs) (p : Loc Name) (s : Schema) : Prop :=
  ∃ c, (parquetNames fs p).head? = some c ∧ SchemaAt L fs p c s

theorem CommitmentAt.unique {L : Libs ρ κ σ} {fs : Fs} {p : Loc Name} {c c' : κ}
    (h : CommitmentAt L fs p c) (h' : CommitmentAt L fs p c') : c = c' := by
  obtain ⟨bytes, n, hb, hd⟩ := h
  obtain ⟨bytes', n', hb', hd'⟩ := h'
  rw [hb] at hb'
  obtain rfl : bytes = bytes' := by simpa using hb'
  rw [hd] at hd'
  simpa using congrArg (Option.map Prod.fst) hd'

section OneFile

variable {dir : Path} {fs : Fs} {c : Name}

theorem hasNul_entryPath : (entryPath dir c).hasNul = (dir.hasNul || c.contains '\x00') := by
  rw [entryPath, Path.hasNul, Path.hasNul, List.any_append]
  simp

theorem eval_readSchema_entry (hdir : dir.Straight) (hnul : dir.hasNul = false) (hc : c ≠ dotdot)
    {s : Schema} :
    (readSchema L (entryPath dir c)).eval fs = .ok s ↔ SchemaAt L fs dir.loc c s := by
  rw [eval_readSchema_ok, hasNul_entryPath, hnul, Bool.false_or, node_entryPath fs hdir hc, SchemaAt]

theorem eval_readBatch_entry (hdir : dir.Straight) (hnul : dir.hasNul = false) (hc : c ≠ dotdot)
    {b : RecordBatch ρ} :
    (readBatch L (entryPath dir c)).eval fs = .ok b ↔ BatchAt L fs dir.loc c b := by
  rw [eval_readBatch_ok, hasNul_entryPath, hnul, Bool.false_or, node_entryPath fs hdir hc, BatchAt]

theorem eval_readCommitment_dir (hdir : dir.Straight) (hnul : dir.hasNul = false) {k : κ} :
    (readCommitment L (commitPath dir)).eval fs = .ok k ↔ CommitmentAt L fs dir.loc k := by
  rw [eval_readCommitment_ok, hasNul_commitPath, commitPath, node_join fs plain_commitName hdir,
    CommitmentAt]
  exact ⟨fun h => h.2, fun h => ⟨hnul, h⟩⟩

end OneFile

/-! ### The listing and the schema of the first file -/

/-- The paths of a table and the schema of the first of them. -/
def firstSchema (dir : Path) : Io DbError (List Path × Schema) := do
  let paths ← parquetPaths dir
  let first ← Prog.ofOption .empty paths.head?
  let schema ← readSchema L first
  pure (paths, schema)

theorem reader_firstSchema (dir : Path) : (firstSchema L dir).Reader :=
  (reader_parquetPaths dir).bind fun _ => (Prog.Reader.ofOption _ _).bind fun _ =>
    (reader_readSchema L _).bind fun _ => Prog.Reader.pure _

theorem eval_firstSchema_ok {dir : Path} (hdir : dir.Straight) {fs : Fs} {ps : List Path} {s : Schema} :
    (firstSchema L dir).eval fs = .ok (ps, s) ↔
      dir.hasNul = false ∧ fs.lookup dir.loc = some .dir ∧
        ps = (parquetNames fs dir.loc).map (entryPath dir) ∧ FirstSchema L fs dir.loc s := by
  have hr1 : ∀ (paths : List Path) first, (do
      let schema ← readSchema L first
      pure (paths, schema) : Io DbError _).Reader :=
    fun _ _ => (reader_readSchema L _).bind fun _ => Prog.Reader.pure _
  have hr2 : ∀ paths : List Path, (do
      let first ← Prog.ofOption DbError.empty paths.head?
      let schema ← readSchema L first
      pure (paths, schema) : Io DbError _).Reader :=
    fun paths => (Prog.Reader.ofOption _ _).bind fun _ => hr1 paths _
  have hdots : ∀ c, (parquetNames fs dir.loc).head? = some c → c ≠ dotdot := fun c hc =>
    ne_dotdot_of_isParquet (mem_parquetNames.mp (List.mem_of_head? hc)).1
  rw [firstSchema, (reader_parquetPaths dir).eval_bind_ok hr2]
  constructor
  · rintro ⟨paths, hps, h⟩
    obtain ⟨hnul, hd, rfl⟩ := (eval_parquetPaths_ok hdir).mp hps
    obtain ⟨first, hfirst, h⟩ := ((Prog.Reader.ofOption _ _).eval_bind_ok (hr1 _)).mp h
    obtain ⟨schema, hs, hpair⟩ := ((reader_readSchema L _).eval_bind_ok fun _ =>
      Prog.Reader.pure _).mp h
    change Outcome.ok _ = Outcome.ok _ at hpair
    rw [Outcome.ok.injEq, Prod.mk.injEq] at hpair
    obtain ⟨hps', rfl⟩ := hpair
    rw [eval_ofOption_ok, List.head?_map, Option.map_eq_some_iff] at hfirst
    obtain ⟨c, hc, rfl⟩ := hfirst
    exact ⟨hnul, hd, hps'.symm, c, hc, (eval_readSchema_entry L hdir hnul (hdots c hc)).mp hs⟩
  · rintro ⟨hnul, hd, rfl, c, hc, hs⟩
    refine ⟨_, (eval_parquetPaths_ok hdir).mpr ⟨hnul, hd, rfl⟩, ?_⟩
    refine ((Prog.Reader.ofOption _ _).eval_bind_ok (hr1 _)).mpr ⟨entryPath dir c, ?_, ?_⟩
    · rw [eval_ofOption_ok, List.head?_map, hc]; rfl
    · exact ((reader_readSchema L _).eval_bind_ok fun _ => Prog.Reader.pure _).mpr
        ⟨s, (eval_readSchema_entry L hdir hnul (hdots c hc)).mpr hs, rfl⟩

/-! ### What is read at listed paths -/

section Listed

variable {L} {dir : Path} {fs : Fs}

/-- The part of `table_data` after the listing. -/
def dataOf (L : Libs ρ κ σ) (paths : List Path) : Io DbError (RecordBatch ρ) := do
  let first ← Prog.ofOption .empty paths.head?
  let schema ← readSchema L first
  let batches ← paths.mapM (readBatch L)
  Prog.ofOption .arrow (L.concatBatches schema batches)

theorem reader_dataOf (L : Libs ρ κ σ) (paths : List Path) : (dataOf L paths).Reader :=
  (Prog.Reader.ofOption _ _).bind fun _ => (reader_readSchema L _).bind fun _ =>
    (Prog.Reader.mapM (reader_readBatch L) _).bind fun _ => Prog.Reader.ofOption _ _

/-- Names that step nowhere. -/
def Entries (names : List Name) : Prop := ∀ c ∈ names, c ≠ dotdot

theorem entries_parquetNames (fs : Fs) (p : Loc Name) : Entries (parquetNames fs p) := fun _ hc =>
  ne_dotdot_of_isParquet (mem_parquetNames.mp hc).1

theorem eval_dataOf_ok (hdir : dir.Straight) (hnul : dir.hasNul = false) {names : List Name}
    (hnames : Entries names) {b : RecordBatch ρ} :
    (dataOf L (names.map (entryPath dir))).eval fs = .ok b ↔ ∃ c s bs, names.head? = some c ∧
      SchemaAt L fs dir.loc c s ∧ List.Forall₂ (BatchAt L fs dir.loc) names bs ∧ L.concatBatches s bs = some b := by
  have hr1 : ∀ s (bs : List (RecordBatch ρ)), (Prog.ofOption DbError.arrow (L.concatBatches s bs) :
      Io DbError _).Reader := fun _ _ => Prog.Reader.ofOption _ _
  have hr2 : ∀ s, (do
      let batches ← (names.map (entryPath dir)).mapM (readBatch L)
      Prog.ofOption .arrow (L.concatBatches s batches) : Io DbError _).Reader :=
    fun s => (Prog.Reader.mapM (reader_readBatch L) _).bind fun _ => hr1 s _
  have hread : ∀ bs, List.Forall₂ (fun path b => (readBatch L path).eval fs = .ok b)
      (names.map (entryPath dir)) bs ↔ List.Forall₂ (BatchAt L fs dir.loc) names bs := by
    intro bs
    rw [List.forall₂_map_left_iff, List.forall₂_iff_zip, List.forall₂_iff_zip]
    refine and_congr_right fun _ => forall_congr' fun c => forall_congr' fun b => imp_congr_right fun hmem => ?_
    exact eval_readBatch_entry L hdir hnul (hnames c (List.of_mem_zip hmem).1)
  rw [dataOf, (Prog.Reader.ofOption _ _).eval_bind_ok fun _ => (reader_readSchema L _).bind hr2]
  simp only [(reader_readSchema L _).eval_bind_ok hr2, (Prog.Reader.mapM (reader_readBatch L) _).eval_bind_ok (hr1 _),
    Prog.Reader.eval_mapM_ok (reader_readBatch L), hread, eval_ofOption_ok, List.head?_map, Option.map_eq_some_iff]
  constructor
  · rintro ⟨_, ⟨c, hc, rfl⟩, s, hs, bs, hbs, hcat⟩
    exact ⟨c, s, bs, hc, (eval_readSchema_entry L hdir hnul (hnames c (List.mem_of_head? hc))).mp hs, hbs, hcat⟩
  · rintro ⟨c, s, bs, hc, hs, hbs, hcat⟩
    exact ⟨_, ⟨c, hc, rfl⟩, s, (eval_readSchema_entry L hdir hnul (hnames c (List.mem_of_head? hc))).mpr hs, bs,
      hbs, hcat⟩

end Listed

/-! ### The reads of one table -/

/-- The part of `schema` after the test. -/
theorem schema_eq (r : TableRef) : schema L db r = (do
    let present ← Disk.pathExists (db.tableDir r)
    if !present then Prog.fail (.notFound r) else
      Prod.snd <$> firstSchema L (db.tableDir r)) := by
  simp only [schema, firstSchema, map_bind, map_pure, bind_pure]

/-- The part of `table_data` after the test. -/
theorem tableData_eq (r : TableRef) : tableData L db r = (do
    let present ← Disk.pathExists (db.tableDir r)
    if !present then Prog.fail (.notFound r) else do
      let first ← firstSchema L (db.tableDir r)
      let batches ← first.1.mapM (readBatch L)
      Prog.ofOption .arrow (L.concatBatches first.2 batches)) := by
  simp only [tableData, firstSchema, bind_assoc, pure_bind]

theorem tableData_eq_dataOf (r : TableRef) : tableData L db r = (do
    let present ← Disk.pathExists (db.tableDir r)
    if !present then Prog.fail (.notFound r) else do
      let paths ← parquetPaths (db.tableDir r)
      dataOf L paths) := rfl

theorem reader_schema (r : TableRef) : (schema L db r).Reader := by
  rw [schema_eq]
  refine reader_ifPresent ?_ r
  rw [map_eq_pure_bind]
  exact (reader_firstSchema L _).bind fun _ => Prog.Reader.pure _

theorem reader_tableData (r : TableRef) : (tableData L db r).Reader := by
  rw [tableData_eq]
  exact reader_ifPresent ((reader_firstSchema L _).bind fun _ =>
    (Prog.Reader.mapM (reader_readBatch L) _).bind fun _ => Prog.Reader.ofOption _ _) r

theorem reader_tableCommitment (r : TableRef) : (tableCommitment L db r).Reader :=
  reader_ifPresent (reader_readCommitment L _) r

theorem reader_data (rs : List TableRef) : (data L db rs).Reader :=
  (Prog.Reader.mapM (fun r => (reader_tableData L r).bind fun _ => Prog.Reader.pure _) rs).bind fun _ =>
    Prog.Reader.pure _

theorem reader_commitments (rs : List TableRef) : (commitments L db rs).Reader :=
  (Prog.Reader.mapM (fun r => (reader_tableCommitment L r).bind fun _ => Prog.Reader.pure _) rs).bind
    fun _ => Prog.Reader.pure _

theorem reader_tables : db.tables.Reader :=
  Disk.reader_readDir.bind fun _ =>
    (Prog.Reader.mapM (fun _ => Disk.reader_isDir.bind fun _ => Prog.Reader.pure _) _).bind fun _ =>
      Prog.Reader.pure _

section OneTable

variable {L} {r : TableRef} {fs : Fs}

theorem present_of_dir (hr : r.Parsed) (hnul : (db.tableDir r).hasNul = false)
    (hd : fs.lookup (db.tableDir r).loc = some .dir) : db.present fs r = true := by
  rw [present, hnul, node_straight fs (tableDir_straight db hr), endsAs_eq_dir.mpr hd]
  rfl

theorem noNul_of_present (h : db.present fs r = true) : (db.tableDir r).hasNul = false := by
  rw [present, Bool.and_eq_true] at h
  simpa using h.1

theorem lookup_of_present (hr : r.Parsed) (h : db.present fs r = true) :
    fs.lookup (db.tableDir r).loc ≠ none := by
  rw [present, Bool.and_eq_true] at h
  intro hn
  rw [node_straight fs (tableDir_straight db hr), endsAs_eq_none hn] at h
  simp at h

theorem eval_schema_ok (hr : r.Parsed) {s : Schema} :
    (schema L db r).eval fs = .ok s ↔
      db.present fs r = true ∧ fs.lookup (db.tableDir r).loc = some .dir ∧
        FirstSchema L fs (db.tableDir r).loc s := by
  have hreader := reader_firstSchema L (db.tableDir r)
  rw [schema_eq, eval_ifPresent (by
    rw [map_eq_pure_bind]
    exact hreader.bind fun _ => Prog.Reader.pure _)]
  split
  · rename_i hp
    rw [map_eq_pure_bind, hreader.eval_bind_ok fun _ => Prog.Reader.pure _]
    constructor
    · rintro ⟨⟨ps, s'⟩, h, hs⟩
      change Outcome.ok s' = Outcome.ok s at hs
      rw [Outcome.ok.injEq] at hs
      obtain ⟨-, hd, -, hf⟩ := (eval_firstSchema_ok L (tableDir_straight db hr)).mp h
      exact ⟨hp, hd, hs ▸ hf⟩
    · rintro ⟨-, hd, hf⟩
      exact ⟨(_, s), (eval_firstSchema_ok L (tableDir_straight db hr)).mpr
        ⟨noNul_of_present hp, hd, rfl, hf⟩, rfl⟩
  · rename_i hp
    simp [hp]

theorem eval_tableCommitment_ok (hr : r.Parsed) {c : κ} :
    (tableCommitment L db r).eval fs = .ok c ↔
      db.present fs r = true ∧ CommitmentAt L fs (db.tableDir r).loc c := by
  rw [tableCommitment, eval_ifPresent (reader_readCommitment L _)]
  split
  · rename_i hp
    rw [eval_readCommitment_dir L (tableDir_straight db hr) (noNul_of_present hp)]
    exact ⟨fun h => ⟨hp, h⟩, fun h => h.2⟩
  · rename_i hp
    simp [hp]

theorem eval_tableData_ok (hr : r.Parsed) {d : RecordBatch ρ} :
    (tableData L db r).eval fs = .ok d ↔
      db.present fs r = true ∧ fs.lookup (db.tableDir r).loc = some .dir ∧
        ∃ s bs, FirstSchema L fs (db.tableDir r).loc s ∧
          List.Forall₂ (BatchAt L fs (db.tableDir r).loc) (parquetNames fs (db.tableDir r).loc) bs ∧
            L.concatBatches s bs = some d := by
  have hdir := tableDir_straight db hr
  rw [tableData_eq_dataOf, eval_ifPresent ((reader_parquetPaths _).bind (reader_dataOf L))]
  split
  · rename_i hp
    have hnul := noNul_of_present hp
    rw [(reader_parquetPaths _).eval_bind_ok (reader_dataOf L)]
    simp only [eval_parquetPaths_ok hdir]
    constructor
    · rintro ⟨_, ⟨-, hd, rfl⟩, h⟩
      obtain ⟨c, s, bs, hc, hs, hbs, hcat⟩ := (eval_dataOf_ok hdir hnul (entries_parquetNames _ _)).mp h
      exact ⟨hp, hd, s, bs, ⟨c, hc, hs⟩, hbs, hcat⟩
    · rintro ⟨-, hd, s, bs, ⟨c, hc, hs⟩, hbs, hcat⟩
      exact ⟨_, ⟨hnul, hd, rfl⟩, (eval_dataOf_ok hdir hnul (entries_parquetNames _ _)).mpr
        ⟨c, s, bs, hc, hs, hbs, hcat⟩⟩
  · rename_i hp
    simp [hp]

end OneTable

/-! ### The reads of several tables -/

/-- One read for each reference, collected under the references. -/
theorem eval_keyed_ok {α : Type} {f : TableRef → Io DbError α} (hf : ∀ r, (f r).Reader)
    {rs : List TableRef} {fs : Fs} {m : IndexMap TableRef α} :
    (do
      let entries ← rs.mapM fun r => do
        let a ← f r
        pure (r, a)
      pure (IndexMap.collect entries) : Io DbError _).eval fs = .ok m ↔
      ∃ as, List.Forall₂ (fun r a => (f r).eval fs = .ok a) rs as ∧ m = IndexMap.collect (rs.zip as) := by
  have hentry : ∀ r, (do
      let a ← f r
      pure (r, a) : Io DbError (TableRef × α)).Reader :=
    fun r => (hf r).bind fun _ => Prog.Reader.pure _
  rw [(Prog.Reader.mapM hentry rs).eval_bind_ok fun _ => Prog.Reader.pure _]
  have hlist : ∀ es, (rs.mapM fun r => do
      let a ← f r
      pure (r, a) : Io DbError (List (TableRef × α))).eval fs = .ok es ↔
        ∃ as, List.Forall₂ (fun r a => (f r).eval fs = .ok a) rs as ∧ es = rs.zip as := by
    intro es
    rw [Prog.Reader.eval_mapM_ok hentry]
    constructor
    · intro h
      induction h with
      | nil => exact ⟨[], .nil, rfl⟩
      | cons h1 _ ih =>
        obtain ⟨as, has, rfl⟩ := ih
        obtain ⟨a, ha, hp⟩ := ((hf _).eval_bind_ok fun _ => Prog.Reader.pure _).mp h1
        change Outcome.ok _ = Outcome.ok _ at hp
        exact ⟨a :: as, .cons ha has, by rw [← Outcome.ok.inj hp]; rfl⟩
    · rintro ⟨as, has, rfl⟩
      induction has with
      | nil => exact .nil
      | cons h1 _ ih =>
        exact .cons (((hf _).eval_bind_ok fun _ => Prog.Reader.pure _).mpr ⟨_, h1, rfl⟩) ih
  constructor
  · rintro ⟨es, hes, hm⟩
    obtain ⟨as, has, rfl⟩ := (hlist es).mp hes
    change Outcome.ok _ = Outcome.ok _ at hm
    exact ⟨as, has, (Outcome.ok.inj hm).symm⟩
  · rintro ⟨as, has, rfl⟩
    exact ⟨_, (hlist _).mpr ⟨as, has, rfl⟩, rfl⟩

/-- Tables that read the same one by one read the same together. -/
theorem eval_keyed_congr {α : Type} {f : TableRef → Io DbError α} (hf : ∀ r, (f r).Reader)
    {rs : List TableRef} {fs fs' : Fs} (h : ∀ r ∈ rs, (f r).eval fs' = (f r).eval fs) :
    (do
      let entries ← rs.mapM fun r => do
        let a ← f r
        pure (r, a)
      pure (IndexMap.collect entries) : Io DbError _).eval fs' =
    (do
      let entries ← rs.mapM fun r => do
        let a ← f r
        pure (r, a)
      pure (IndexMap.collect entries) : Io DbError _).eval fs := by
  have hentry : ∀ r, (do
      let a ← f r
      pure (r, a) : Io DbError (TableRef × α)).Reader :=
    fun r => (hf r).bind fun _ => Prog.Reader.pure _
  rw [(Prog.Reader.mapM hentry rs).eval_bind fun _ => Prog.Reader.pure _,
    (Prog.Reader.mapM hentry rs).eval_bind fun _ => Prog.Reader.pure _,
    Prog.Reader.eval_mapM_congr hentry fun r hmem => ?_]
  · rcases (rs.mapM fun r => do
      let a ← f r
      pure (r, a) : Io DbError _).eval fs <;> rfl
  · rw [(hf r).eval_bind fun _ => Prog.Reader.pure _, (hf r).eval_bind fun _ => Prog.Reader.pure _, h r hmem]
    rcases (f r).eval fs <;> rfl

theorem eval_data_ok {rs : List TableRef} {fs : Fs} {m : IndexMap TableRef (RecordBatch ρ)} :
    (data L db rs).eval fs = .ok m ↔ ∃ bs,
      List.Forall₂ (fun r b => (tableData L db r).eval fs = .ok b) rs bs ∧ m = IndexMap.collect (rs.zip bs) :=
  eval_keyed_ok fun r => reader_tableData L r

theorem eval_commitments_ok {rs : List TableRef} {fs : Fs} {m : IndexMap TableRef κ} :
    (commitments L db rs).eval fs = .ok m ↔ ∃ ks,
      List.Forall₂ (fun r k => (tableCommitment L db r).eval fs = .ok k) rs ks ∧
        m = IndexMap.collect (rs.zip ks) :=
  eval_keyed_ok fun r => reader_tableCommitment L r

theorem eval_keyed_singleton {α : Type} {f : TableRef → Io DbError α} (hf : ∀ r, (f r).Reader)
    {r : TableRef} {fs : Fs} {a : α} :
    (do
      let entries ← [r].mapM fun r => do
        let a ← f r
        pure (r, a)
      pure (IndexMap.collect entries) : Io DbError _).eval fs = .ok (IndexMap.collect [(r, a)]) ↔
      (f r).eval fs = .ok a := by
  rw [eval_keyed_ok hf]
  constructor
  · rintro ⟨as, has, hm⟩
    cases has with
    | @cons _ a' _ _ h h' =>
      cases h'
      have hl := congrArg (fun m => m.lookup r) hm
      simp only [List.zip_cons_cons, List.zip_nil_left] at hl
      rw [IndexMap.lookup_collect (v := a) (by simp), IndexMap.lookup_collect (v := a') (by simp)] at hl
      simp only [List.map_cons, List.map_nil, List.mem_singleton, if_true, Option.some.injEq] at hl
      rw [hl]
      exact h
  · intro h
    exact ⟨[a], .cons h .nil, rfl⟩

theorem eval_data_singleton {r : TableRef} {fs : Fs} {b : RecordBatch ρ} :
    (data L db [r]).eval fs = .ok (IndexMap.collect [(r, b)]) ↔ (tableData L db r).eval fs = .ok b :=
  eval_keyed_singleton fun r => reader_tableData L r

theorem eval_commitments_singleton {r : TableRef} {fs : Fs} {k : κ} :
    (commitments L db [r]).eval fs = .ok (IndexMap.collect [(r, k)]) ↔
      (tableCommitment L db r).eval fs = .ok k :=
  eval_keyed_singleton fun r => reader_tableCommitment L r

end Reads

end Db

end SxtEnterprise
