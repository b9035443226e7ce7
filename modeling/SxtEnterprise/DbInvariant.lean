import SxtEnterprise.DbWrites

/-!
# The invariant of a table's directory

`TableLog` is what a table is for: a schema and the batches inserted so far.  `Stored` says that a
directory holds such a log: file `0` the empty batch of the schema, then the batches in order under
increasing numbers, and the commitment of all of them.  A directory that holds no log (`Unlogged`) has
either no batch file or no readable commitment, so that no insert gets past its checks there.

`Inv` says for every location of a region which of the two it is, by a catalog.  The operations change
the catalog at one location only (`Inv.createTable`, `Inv.insert`); that every other location keeps its
log is one frame lemma (`Stored.frame`, `Unlogged.frame`).

The file numbers need not be consecutive here: a directory under a table's own that is called like a
batch counts as one.  Without such directories (`Tidy`) they are (`Batches.numbers_eq_range`).
-/

namespace SxtEnterprise

open NumberedNames Paths FaultyRun

/-- A table as it is meant: its schema, and the batches inserted so far. -/
structure TableLog (ρ : Type) where
  schema : Schema
  batches : List (RecordBatch ρ)

namespace TableLog

variable {ρ : Type}

/-- A table just created. -/
def new (schema : Schema) : TableLog ρ := ⟨schema, []⟩

/-- One batch more. -/
def push (e : TableLog ρ) (b : RecordBatch ρ) : TableLog ρ := ⟨e.schema, e.batches ++ [b]⟩

/-- The batch files, in order: the first holds no rows. -/
def files (e : TableLog ρ) : List (RecordBatch ρ) := RecordBatch.newEmpty e.schema :: e.batches

/-- All rows, in the order they were inserted. -/
def content (e : TableLog ρ) : RecordBatch ρ := RecordBatch.concat e.schema e.batches

@[simp] theorem push_schema (e : TableLog ρ) (b : RecordBatch ρ) : (e.push b).schema = e.schema := rfl

@[simp] theorem push_batches (e : TableLog ρ) (b : RecordBatch ρ) :
    (e.push b).batches = e.batches ++ [b] := rfl

@[simp] theorem files_push (e : TableLog ρ) (b : RecordBatch ρ) : (e.push b).files = e.files ++ [b] := rfl

@[simp] theorem content_schema (e : TableLog ρ) : e.content.schema = e.schema := rfl

theorem content_push (e : TableLog ρ) (b : RecordBatch ρ) :
    (e.push b).content = RecordBatch.concat e.schema [e.content, b] := by
  simp [content, RecordBatch.concat]

theorem content_push_rows (e : TableLog ρ) (b : RecordBatch ρ) :
    (e.push b).content.rows = e.content.rows ++ b.rows := by
  simp [content, RecordBatch.concat]

/-! ### Reading back -/

/-- The order in which the batches of a table of `n` files are read. -/
def readOrder (n : ℕ) : List ℕ := nameOrder 6 ".parquet".toList n

/-- What reading a table's files one after the other gives. -/
def readBack (e : TableLog ρ) : RecordBatch ρ :=
  RecordBatch.concat e.schema
    ((readOrder e.files.length).map fun i => e.files.getD i (RecordBatch.newEmpty e.schema))

theorem mem_readOrder {n i : ℕ} : i ∈ readOrder n ↔ i < n := by
  rw [readOrder, (nameOrder_perm _ _ _).mem_iff, List.mem_range]

theorem length_readOrder (n : ℕ) : (readOrder n).length = n := by
  rw [readOrder, (nameOrder_perm _ _ _).length_eq, List.length_range]

theorem files_flatMap_rows (e : TableLog ρ) : e.files.flatMap RecordBatch.rows = e.content.rows := by
  simp [files, content, RecordBatch.concat, RecordBatch.newEmpty]

theorem map_range_getD {α : Type} (l : List α) (a : α) :
    ((List.range l.length).map fun i => l.getD i a) = l := by
  apply List.ext_getElem
  · simp
  · intro i h1 h2
    rw [List.getElem_map, List.getElem_range, List.getD_eq_getElem _ _ h2]

/-- The files in read order hold the rows of the table, each once. -/
theorem readBack_perm (e : TableLog ρ) : e.readBack.rows.Perm e.content.rows := by
  have hperm := (nameOrder_perm 6 ".parquet".toList e.files.length).map fun i =>
    e.files.getD i (RecordBatch.newEmpty e.schema)
  rw [map_range_getD] at hperm
  rw [← e.files_flatMap_rows]
  exact hperm.flatMap_right RecordBatch.rows

/-- **Up to `10 ^ 6` files, they are read in the order they were inserted.** -/
theorem readBack_eq (e : TableLog ρ) (h : e.files.length ≤ 10 ^ 6) : e.readBack = e.content := by
  rw [readBack, readOrder, nameOrder_eq_range _ (by decide) h, map_range_getD, RecordBatch.concat,
    files_flatMap_rows]
  rfl

/-- **One batch more** puts its rows, in their order, somewhere between the others: to the end, up to `10 ^ 6`
files. -/
theorem readBack_push (e : TableLog ρ) (b : RecordBatch ρ) : ∃ rs rs', e.readBack.rows = rs ++ rs' ∧
    (e.push b).readBack.rows = rs ++ b.rows ++ rs' ∧ (e.files.length < 10 ^ 6 → rs' = []) := by
  obtain ⟨is, js, h, h', hend⟩ := nameOrder_succ ".parquet".toList (w := 6) (by decide) e.files.length
  have hsame : ∀ l : List ℕ, (∀ i ∈ l, i < e.files.length) →
      (l.map fun i => (e.files ++ [b]).getD i (RecordBatch.newEmpty e.schema))
        = l.map fun i => e.files.getD i (RecordBatch.newEmpty e.schema) := fun l hl =>
    List.map_congr_left fun i hi => List.getD_append _ _ _ _ (hl i hi)
  have hlt : ∀ i ∈ is ++ js, i < e.files.length := fun i hi => mem_readOrder.mp (by rw [readOrder, h]; exact hi)
  have hnew : (e.files ++ [b]).getD e.files.length (RecordBatch.newEmpty e.schema) = b := by
    rw [List.getD_append_right _ _ _ _ le_rfl, Nat.sub_self]
    rfl
  refine ⟨is.flatMap fun i => (e.files.getD i (RecordBatch.newEmpty e.schema)).rows,
    js.flatMap fun i => (e.files.getD i (RecordBatch.newEmpty e.schema)).rows, ?_, ?_, fun hn => by rw [hend hn]; rfl⟩
  · rw [readBack, readOrder, h, RecordBatch.concat, List.flatMap_map, List.flatMap_append]
  · rw [readBack, readOrder, files_push, List.length_append, List.length_singleton, h', push_schema, List.map_append,
      List.map_cons, hsame is fun i hi => hlt i (List.mem_append_left _ hi),
      hsame js fun i hi => hlt i (List.mem_append_right _ hi), hnew, RecordBatch.concat, List.flatMap_append,
      List.flatMap_cons, List.flatMap_map, List.flatMap_map, List.append_assoc]

end TableLog

namespace Db

open TableLog (readOrder mem_readOrder)

variable {ρ κ σ : Type} (L : Libs ρ κ σ)

/-- The file `c` in `p` is what was written for `b`. -/
def BatchFile (fs : Fs) (p : Loc Name) (c : Name) (b : RecordBatch ρ) : Prop :=
  ∃ bytes, L.writeParquet b = some bytes ∧ fs.lookup (p ++ [c]) = some (.file bytes)

/-- The commitment file in `p` is what was written for `k`. -/
def CommitmentFile (fs : Fs) (p : Loc Name) (k : κ) : Prop :=
  ∃ bytes, L.serialize k = some bytes ∧ fs.lookup (p ++ [commitName]) = some (.file bytes)

/-- The batch files in the directory `p` are those of the log `e`, numbered `idx`. -/
structure Batches (fs : Fs) (p : Loc Name) (e : TableLog ρ) (idx : List ℕ) : Prop where
  isDir : fs.lookup p = some .dir
  files : List.Forall₂ (fun i b => BatchFile L fs p (batchName i) b) idx e.files
  increasing : idx.Pairwise (· < ·)
  first : idx.head? = some 0
  below : ∀ i ∈ idx, i < (parquetNames fs p).length
  only : ∀ c bytes, isParquet c = true → fs.lookup (p ++ [c]) = some (.file bytes) →
    ∃ i ∈ idx, c = batchName i
  schemas : ∀ b ∈ e.batches, b.schema = e.schema
  bare : e.schema = [] → e.batches = []

/-- The directory `p` holds the log `e`, its batch files being numbered `idx`. -/
structure Stored (fs : Fs) (p : Loc Name) (e : TableLog ρ) (idx : List ℕ) : Prop
    extends Batches L fs p e idx where
  commitment : ∃ k, CommitmentFile L fs p k ∧ L.Commits k e.content

/-- The directory `p` holds no log. -/
def Unlogged (fs : Fs) (p : Loc Name) : Prop :=
  (∀ c bytes, isParquet c = true → fs.lookup (p ++ [c]) ≠ some (.file bytes)) ∨
    ∀ k, ¬ CommitmentAt L fs p k

/-! ### What changes elsewhere leave alone -/

/-- Nothing in `p` was lost, and no file in it came or changed: at most directories were added. -/
structure Kept (fs fs' : Fs) (p : Loc Name) : Prop where
  isDir : fs.lookup p = some .dir → fs'.lookup p = some .dir
  file : ∀ c bytes, fs'.lookup (p ++ [c]) = some (.file bytes) ↔ fs.lookup (p ++ [c]) = some (.file bytes)
  grows : ∀ c, fs.lookup (p ++ [c]) ≠ none → fs'.lookup (p ++ [c]) ≠ none

theorem Kept.refl (fs : Fs) (p : Loc Name) : Kept fs fs p := ⟨id, fun _ _ => Iff.rfl, fun _ => id⟩

theorem Kept.trans {fs fs' fs'' : Fs} {p : Loc Name} (h : Kept fs fs' p) (h' : Kept fs' fs'' p) :
    Kept fs fs'' p :=
  ⟨fun hd => h'.isDir (h.isDir hd), fun c b => (h'.file c b).trans (h.file c b),
    fun c hc => h'.grows c (h.grows c hc)⟩

/-- Making directories keeps everything everywhere. -/
theorem Kept.mkdirs (fs : Fs) (cs : Loc Name) (k : ℕ) (p : Loc Name) : Kept fs (fs.mkdirs [] cs k) p := by
  have hstep := FileTree.lookup_mkdirs fs [] cs k
  refine ⟨?_, ?_, ?_⟩
  · intro hd
    rcases hstep p with h | ⟨-, h, -⟩
    · rw [h, hd]
    · exact h
  · intro c bytes
    rcases hstep (p ++ [c]) with h | ⟨hn, h, -⟩
    · rw [h]
    · rw [h, hn]; simp
  · intro c hc
    rcases hstep (p ++ [c]) with h | ⟨hn, -, -⟩
    · rwa [h]
    · exact absurd hn hc

/-- Writing a file keeps every other directory. -/
theorem Kept.sets {fs fs' : Fs} {p q : Loc Name} {c : Name} {bytes : Bytes} (h : fs.Sets p c bytes fs')
    (hq : q ≠ p) : Kept fs fs' q := by
  have hne : ∀ d, q ++ [d] ≠ p ++ [c] := fun d hd => hq (List.append_inj' hd rfl).1
  refine ⟨(h.isDir_iff q).mpr, ?_, ?_⟩
  · intro d b
    rw [h.ne (hne d)]
  · intro d hd
    rwa [h.ne (hne d)]

/-- Storing a batch keeps every other directory, however it ends. -/
theorem StoreLeft.kept {L : Libs ρ κ σ} {fs fs' : Fs} {p q : Loc Name} {n : ℕ} {batch : RecordBatch ρ}
    {made : Except Failure κ} {fates : List Fate} {o : Outcome DbError Unit}
    (h : StoreLeft L fs p n batch made fates o fs') (hq : q ≠ p) : Kept fs fs' q := by
  cases h with
  | noParquet _ _ hset => exact Kept.sets hset hq
  | partBatch _ _ _ hset => exact Kept.sets hset hq
  | batchOnly _ _ _ hset _ => exact Kept.sets hset hq
  | partCommit _ _ _ hset _ _ _ _ hset' => exact (Kept.sets hset hq).trans (Kept.sets hset' hq)
  | all _ hset _ _ hset' => exact (Kept.sets hset hq).trans (Kept.sets hset' hq)

section Frame

variable {L} {fs fs' : Fs} {p : Loc Name}

theorem length_parquetNames_le (h : Kept fs fs' p) :
    (parquetNames fs p).length ≤ (parquetNames fs' p).length := by
  apply (List.subperm_of_subset (nodup_parquetNames fs p) ?_).length_le
  intro c hc
  rw [mem_parquetNames] at hc ⊢
  exact ⟨hc.1, h.grows c hc.2⟩

theorem BatchFile.frame {c : Name} {b : RecordBatch ρ} (hk : Kept fs fs' p)
    (h : BatchFile L fs p c b) : BatchFile L fs' p c b := by
  obtain ⟨bytes, hw, hb⟩ := h
  exact ⟨bytes, hw, (hk.file _ _).mpr hb⟩

theorem Batches.frame {e : TableLog ρ} {idx : List ℕ} (h : Batches L fs p e idx) (hk : Kept fs fs' p) :
    Batches L fs' p e idx where
  isDir := hk.isDir h.isDir
  files := h.files.imp fun _ _ hf => hf.frame hk
  increasing := h.increasing
  first := h.first
  below i hi := lt_of_lt_of_le (h.below i hi) (length_parquetNames_le hk)
  only c bytes hc hb := h.only c bytes hc ((hk.file _ _).mp hb)
  schemas := h.schemas
  bare := h.bare

/-- **Frame.**  A log stays where it is stored. -/
theorem Stored.frame {e : TableLog ρ} {idx : List ℕ} (h : Stored L fs p e idx) (hk : Kept fs fs' p) :
    Stored L fs' p e idx where
  toBatches := h.toBatches.frame hk
  commitment := by
    obtain ⟨k, ⟨bytes, hs, hb⟩, hc⟩ := h.commitment
    exact ⟨k, ⟨bytes, hs, (hk.file _ _).mpr hb⟩, hc⟩

theorem Unlogged.frame (h : Unlogged L fs p) (hk : Kept fs fs' p) : Unlogged L fs' p := by
  rcases h with h | h
  · exact Or.inl fun c bytes hc hb => h c bytes hc ((hk.file _ _).mp hb)
  · refine Or.inr fun k hc => ?_
    obtain ⟨bytes, n, hb, hd⟩ := hc
    exact h k ⟨bytes, n, (hk.file _ _).mp hb, hd⟩

end Frame

/-! ### What a directory with a log tells -/

section Stored

variable {L} {fs fs₁ fs' : Fs} {p : Loc Name} {e : TableLog ρ} {idx : List ℕ}

theorem CommitmentFile.at (hL : L.Lawful) {k : κ} (h : CommitmentFile L fs p k) : CommitmentAt L fs p k := by
  obtain ⟨bytes, hs, hb⟩ := h
  exact ⟨bytes, _, hb, hL.deserialize_serialize k bytes hs⟩

theorem Batches.mem_names (h : Batches L fs p e idx) {i : ℕ} (hi : i ∈ idx) :
    batchName i ∈ parquetNames fs p := by
  rw [mem_parquetNames]
  refine ⟨isParquet_batchName i, ?_⟩
  obtain ⟨k, hk, rfl⟩ := List.getElem_of_mem hi
  obtain ⟨bytes, -, hb⟩ := h.files.get (i := k) hk (by rw [← h.files.length_eq]; exact hk)
  rw [List.get_eq_getElem] at hb
  rw [hb]
  simp

theorem Batches.zero_mem (h : Batches L fs p e idx) : 0 ∈ idx := List.mem_of_head? h.first

/-- File `0` is the empty batch of the schema. -/
theorem Batches.file_zero (h : Batches L fs p e idx) :
    BatchFile L fs p (batchName 0) (RecordBatch.newEmpty e.schema) := by
  have hf := h.files
  have h0 := h.first
  cases idx with
  | nil => simp at h0
  | cons i idx =>
    rw [List.head?_cons, Option.some.injEq] at h0
    subst h0
    exact (List.forall₂_cons.mp hf).1

/-- **The file that sorts first, if it is a file, is file `0`.** -/
theorem Batches.head (h : Batches L fs p e idx) {s : Schema} (hs : FirstSchema L fs p s) :
    (parquetNames fs p).head? = some (batchName 0) ∧ ∀ c ∈ parquetNames fs p, batchName 0 ≤ c := by
  obtain ⟨c, hc, -, bytes, hb, -⟩ := hs
  obtain ⟨i, -, rfl⟩ := h.only c bytes (mem_parquetNames.mp (List.mem_of_head? hc)).1 hb
  have hleast : ∀ c ∈ parquetNames fs p, batchName i ≤ c := by
    have hpw : (parquetNames fs p).Pairwise (· ≤ ·) := sorted_pairwise _
    rcases hnames : parquetNames fs p with _ | ⟨d, ds⟩
    · simp
    · rw [hnames] at hpw hc
      obtain rfl : d = batchName i := by simpa using hc
      intro c hmem
      rcases List.mem_cons.mp hmem with rfl | hmem
      · exact le_rfl
      · exact (List.pairwise_cons.mp hpw).1 _ hmem
  have hzero : batchName i = batchName 0 :=
    le_antisymm (hleast _ (h.mem_names h.zero_mem)) (numbered_zero_le _ (by decide) i)
  rw [← hzero]
  exact ⟨hc, hleast⟩

/-- So the schema read is the table's, and has a column. -/
theorem Batches.firstSchema (h : Batches L fs p e idx) (hL : L.Lawful) {s : Schema}
    (hs : FirstSchema L fs p s) : e.schema ≠ [] ∧ s = e.schema := by
  have hhead := (h.head hs).1
  obtain ⟨c, hc, -, bytes, hb, hschema⟩ := hs
  rw [hhead, Option.some.injEq] at hc
  subst hc
  obtain ⟨bytes', hw, hb'⟩ := h.file_zero
  rw [hb] at hb'
  obtain rfl : bytes = bytes' := by simpa using hb'
  exact (hL.schema_of_write hw).mp hschema

/-- Where file `0` sorts first, its schema is read. -/
theorem Batches.firstSchema_of_head (h : Batches L fs p e idx) (hL : L.Lawful) (hcol : e.schema ≠ [])
    (hle : ∀ c ∈ parquetNames fs p, batchName 0 ≤ c) : FirstSchema L fs p e.schema := by
  obtain ⟨bytes, hw, hb⟩ := h.file_zero
  refine ⟨batchName 0, ?_, noNul_batchName 0, bytes, hb, (hL.schema_of_write hw).mpr ⟨hcol, rfl⟩⟩
  exact sorted_head (mem_sorted.mp (h.mem_names h.zero_mem)) fun c hc => hle c (mem_sorted.mpr hc)

/-- What the checks of `insert` find is the table's schema and the commitment of its content. -/
theorem Stored.ready (h : Stored L fs p e idx) (hL : L.Lawful) {s : Schema} {n : ℕ} {k : κ}
    (hr : Ready L fs p s n k) : s = e.schema ∧ L.Commits k e.content := by
  refine ⟨(h.firstSchema hL hr.first).2, ?_⟩
  obtain ⟨k', hk', hc⟩ := h.commitment
  rw [hr.commitment.unique (hk'.at hL)]
  exact hc

/-- A directory without a log passes no check. -/
theorem Unlogged.not_ready (h : Unlogged L fs p) {s : Schema} {n : ℕ} {k : κ} : ¬ Ready L fs p s n k := by
  intro hr
  rcases h with h | h
  · obtain ⟨c, hc, -, bytes, hb, -⟩ := hr.first
    exact h c bytes (mem_parquetNames.mp (List.mem_of_head? hc)).1 hb
  · exact h k hr.commitment

/-- A table without columns holds no rows. -/
theorem Batches.rows_of_bare (h : Batches L fs p e idx) (hbare : e.schema = []) : e.content.rows = [] := by
  rw [TableLog.content, h.bare hbare]
  rfl

/-- The next number is not taken. -/
theorem Batches.fresh (h : Batches L fs p e idx) {n : ℕ} (hn : n = (parquetNames fs p).length)
    (hset : fs.lookup (p ++ [batchName n]) ≠ some .dir) : fs.lookup (p ++ [batchName n]) = none := by
  rcases hb : fs.lookup (p ++ [batchName n]) with _ | _ | bytes
  · rfl
  · exact absurd hb hset
  · obtain ⟨i, hi, heq⟩ := h.only _ _ (isParquet_batchName n) hb
    have := h.below i hi
    rw [← batchName_injective heq, hn] at this
    omega

/-- **One batch more.**  The batch goes to the next number. -/
theorem Batches.append (h : Batches L fs p e idx) {n : ℕ} {b : RecordBatch ρ} {bytes : Bytes}
    (hn : n = (parquetNames fs p).length) (hset : fs.Sets p (batchName n) bytes fs₁)
    (hb : L.writeParquet b = some bytes) (hcol : e.schema ≠ []) (hs : b.schema = e.schema)
    (hother : ∀ q, q ≠ p ++ [commitName] → fs'.lookup q = fs₁.lookup q) :
    Batches L fs' p (e.push b) (idx ++ [n]) := by
  have hnone := h.fresh hn hset.notDir
  have hnew : fs'.lookup (p ++ [batchName n]) = some (.file bytes) := by
    rw [hother _ (by simpa using batchName_ne_commitName n), hset.self]
  have hold : ∀ c, c ≠ commitName → c ≠ batchName n → fs'.lookup (p ++ [c]) = fs.lookup (p ++ [c]) := by
    intro c hc hcn
    rw [hother _ (by simpa using hc), hset.ne (by simpa using hcn)]
  have hparquet : ∀ c, isParquet c = true → c ≠ commitName := by
    rintro c hc rfl
    rw [isParquet_commitName] at hc
    simp at hc
  have hlen : n < (parquetNames fs' p).length := by
    have hsub : (batchName n :: parquetNames fs p).Subperm (parquetNames fs' p) := by
      apply List.subperm_of_subset
      · rw [List.nodup_cons]
        refine ⟨fun hmem => (mem_parquetNames.mp hmem).2 hnone, nodup_parquetNames fs p⟩
      · intro c hc
        rw [mem_parquetNames]
        rcases List.mem_cons.mp hc with rfl | hc
        · exact ⟨isParquet_batchName n, by rw [hnew]; simp⟩
        · obtain ⟨hp, hl⟩ := mem_parquetNames.mp hc
          refine ⟨hp, ?_⟩
          rw [hold c (hparquet c hp) (by rintro rfl; exact hl hnone)]
          exact hl
    have := hsub.length_le
    rw [List.length_cons] at this
    omega
  have hlt : ∀ i ∈ idx, i < n := fun i hi => hn ▸ h.below i hi
  refine ⟨?_, ?_, ?_, ?_, ?_, ?_, ?_, fun hbare => absurd hbare hcol⟩
  · rw [hother _ (by simp), hset.isDir_iff]
    exact h.isDir
  · rw [TableLog.files_push]
    refine List.rel_append ?_ (List.Forall₂.cons ⟨bytes, hb, hnew⟩ List.Forall₂.nil)
    refine (List.forall₂_iff_zip.mpr ⟨h.files.length_eq, ?_⟩)
    intro i b' hmem
    have hi := (List.of_mem_zip hmem).1
    obtain ⟨bytes', hw, hl⟩ := (List.forall₂_iff_zip.mp h.files).2 hmem
    refine ⟨bytes', hw, ?_⟩
    rw [hold _ (batchName_ne_commitName i) fun heq => ?_, hl]
    have := hlt i hi
    rw [batchName_injective heq] at this
    omega
  · rw [List.pairwise_append]
    refine ⟨h.increasing, List.pairwise_singleton _ _, fun i hi j hj => ?_⟩
    rw [List.mem_singleton.mp hj]
    exact hlt i hi
  · have h0 := h.first
    cases idx with
    | nil => simp at h0
    | cons i idx => exact h0
  · intro i hi
    rcases List.mem_append.mp hi with hi | hi
    · exact lt_trans (hlt i hi) hlen
    · rw [List.mem_singleton.mp hi]
      exact hlen
  · intro c bytes' hc hl
    by_cases hcn : c = batchName n
    · exact ⟨n, by simp, hcn⟩
    · rw [hold c (hparquet c hc) hcn] at hl
      obtain ⟨i, hi, heq⟩ := h.only c bytes' hc hl
      exact ⟨i, by simp [hi], heq⟩
  · intro b' hb'
    rw [TableLog.push_batches, List.mem_append, List.mem_singleton] at hb'
    rcases hb' with hb' | rfl
    · exact h.schemas b' hb'
    · exact hs

/-- A batch of the schema appended to a commitment of the content makes one of the longer content. -/
theorem commits_push (hL : L.Lawful) {k k' : κ} {b : RecordBatch ρ} {setup : σ}
    (h : L.Commits k e.content) (hs : b.schema = e.schema) (ha : L.appendBatch k b setup = .ok k') :
    L.Commits k' (e.push b).content := by
  obtain ⟨setup', hk⟩ := h
  refine ⟨setup, ?_⟩
  rw [TableLog.content_push]
  exact hL.append_commits e.content b k k' setup' setup hk ha hs

/-- A batch that went through. -/
theorem Stored.insert (h : Stored L fs p e idx) (hL : L.Lawful) {n : ℕ} {k k' : κ} {b : RecordBatch ρ}
    {setup : σ} {bytes bytes' : Bytes} (hr : Ready L fs p b.schema n k)
    (hb : L.writeParquet b = some bytes) (hset : fs.Sets p (batchName n) bytes fs₁)
    (ha : L.appendBatch k b setup = .ok k') (hk' : L.serialize k' = some bytes')
    (hset' : fs₁.Sets p commitName bytes' fs') : Stored L fs' p (e.push b) (idx ++ [n]) := by
  obtain ⟨hs, hc⟩ := h.ready hL hr
  exact ⟨h.append hr.count hset hb (h.firstSchema hL hr.first).1 hs fun q hq => hset'.ne hq,
    k', ⟨bytes', hk', hset'.self⟩, commits_push hL hc hs ha⟩

/-- **An insert that went through extends the log** of its directory. -/
theorem Stored.of_insert {db : Db} {r : TableRef} {w w' : World Fs (Loc Name)}
    (h : Stored L w.state (db.tableDir r).loc e idx) (hL : L.Lawful) (hr : r.Parsed) (hl : Lossless w.fates)
    {b : RecordBatch ρ} {setup : σ} (hrun : Db.insert L db r b setup w = (.ok (), w')) :
    b.schema = e.schema ∧ ∃ n, Stored L w'.state (db.tableDir r).loc (e.push b) (idx ++ [n]) := by
  rcases insert_cases hr hl hrun with ⟨-, ho⟩ | ⟨n, k, -, hready, -, hleft⟩
  · exact absurd rfl ho
  · obtain ⟨bytes, fs₁, k', bytes', hb, hset, hm, hk, hset'⟩ := hleft.of_ok
    exact ⟨(h.ready hL hready).1, n, h.insert hL hready hb hset hm hk hset'⟩

/-- A table just created. -/
theorem Stored.new {schema : Schema} {k : κ} {setup : σ} {bytes bytes' : Bytes} {fs₀ : Fs}
    (hd : fs₀.lookup p = some .dir) (hnew : ∀ c, fs₀.lookup (p ++ [c]) = none)
    (hb : L.writeParquet (RecordBatch.newEmpty schema) = some bytes)
    (hset : fs₀.Sets p (batchName 0) bytes fs₁)
    (hm : L.commitBatch (RecordBatch.newEmpty schema) 0 setup = .ok k) (hk : L.serialize k = some bytes')
    (hset' : fs₁.Sets p commitName bytes' fs') : Stored L fs' p (TableLog.new schema) [0] := by
  have hbatch : fs'.lookup (p ++ [batchName 0]) = some (.file bytes) := by
    rw [hset'.ne (by simpa using batchName_ne_commitName 0), hset.self]
  have hrest : ∀ c, c ≠ batchName 0 → c ≠ commitName → fs'.lookup (p ++ [c]) = none := by
    intro c h0 hc
    rw [hset'.ne (by simpa using hc), hset.ne (by simpa using h0), hnew]
  refine ⟨⟨?_, ?_, List.pairwise_singleton _ _, rfl, ?_, ?_, ?_, fun _ => rfl⟩, k, ⟨bytes', hk, hset'.self⟩, setup, hm⟩
  · rw [hset'.isDir_iff, hset.isDir_iff]
    exact hd
  · exact .cons ⟨bytes, hb, hbatch⟩ .nil
  · intro i hi
    rw [List.mem_singleton.mp hi]
    exact List.length_pos_of_mem (mem_parquetNames.mpr ⟨isParquet_batchName 0, by rw [hbatch]; simp⟩)
  · intro c b hc hl
    refine ⟨0, by simp, ?_⟩
    by_contra h0
    have hcn : c ≠ commitName := by
      rintro rfl
      rw [isParquet_commitName] at hc
      simp at hc
    rw [hrest c h0 hcn] at hl
    simp at hl
  · intro b hb
    simp [TableLog.new] at hb

end Stored

/-! ### Files beside the tables' -/

/-- A file of a table: a batch or the commitment. -/
def IsTableFile (c : Name) : Prop := isParquet c = true ∨ c = commitName

section Beside

variable {L} {fs fs' : Fs} {p q : Loc Name} {c d : Name}

theorem IsTableFile.lookup_eq (hd : IsTableFile d) (h : FileTree.OnlySets q c fs fs') (hc : ¬ IsTableFile c) :
    fs'.lookup (p ++ [d]) = fs.lookup (p ++ [d]) := by
  apply h.ne
  intro heq
  have hdc : d = c := by simpa using (List.append_inj' heq rfl).2
  exact hc (hdc ▸ hd)

/-- A file that belongs to no table may come or change in a table's directory. -/
theorem Stored.beside {e : TableLog ρ} {idx : List ℕ} (h : Stored L fs p e idx) (hset : FileTree.OnlySets q c fs fs')
    (hc : ¬ IsTableFile c) : Stored L fs' p e idx := by
  have hsame : ∀ d, IsTableFile d → fs'.lookup (p ++ [d]) = fs.lookup (p ++ [d]) := fun d hd => hd.lookup_eq hset hc
  have hnames : ∀ d, d ∈ parquetNames fs p ↔ d ∈ parquetNames fs' p := by
    intro d
    rw [mem_parquetNames, mem_parquetNames]
    exact and_congr_right fun hd => by rw [hsame d (Or.inl hd)]
  refine ⟨⟨(hset.isDir_iff p).mpr h.isDir, h.files.imp ?_, h.increasing, h.first, fun i hi => ?_, ?_, h.schemas,
    h.bare⟩, ?_⟩
  · rintro i b ⟨bytes, hw, hb⟩
    exact ⟨bytes, hw, by rw [hsame _ (Or.inl (isParquet_batchName i)), hb]⟩
  · have hperm := (List.perm_ext_iff_of_nodup (nodup_parquetNames fs p) (nodup_parquetNames fs' p)).mpr hnames
    rw [← hperm.length_eq]
    exact h.below i hi
  · intro d bytes hd hb
    rw [hsame d (Or.inl hd)] at hb
    exact h.only d bytes hd hb
  · obtain ⟨k, ⟨bytes, hs, hb⟩, hk⟩ := h.commitment
    exact ⟨k, ⟨bytes, hs, by rw [hsame _ (Or.inr rfl), hb]⟩, hk⟩

theorem Unlogged.beside (h : Unlogged L fs p) (hset : FileTree.OnlySets q c fs fs') (hc : ¬ IsTableFile c) :
    Unlogged L fs' p := by
  have hsame : ∀ d, IsTableFile d → fs'.lookup (p ++ [d]) = fs.lookup (p ++ [d]) := fun d hd => hd.lookup_eq hset hc
  rcases h with h | h
  · refine Or.inl fun d bytes hd hb => h d bytes hd ?_
    rwa [← hsame d (Or.inl hd)]
  · refine Or.inr fun k hk => ?_
    obtain ⟨bytes, n, hb, hd⟩ := hk
    exact h k ⟨bytes, n, by rwa [← hsame _ (Or.inr rfl)], hd⟩

end Beside

/-! ### The invariant of a region of the tree -/

/-- `cat` says for every location of the region `R` which log it holds, if any. -/
structure Inv (R : Loc Name → Prop) (fs : Fs) (cat : Loc Name → Option (TableLog ρ)) : Prop where
  stored : ∀ p e, R p → cat p = some e → ∃ idx, Stored L fs p e idx
  unlogged : ∀ p, R p → cat p = none → Unlogged L fs p

section Inv

variable {L} {db : Db} {R : Loc Name → Prop} {fs fs' : Fs} {cat : Loc Name → Option (TableLog ρ)}
  {p : Loc Name} {r : TableRef}

theorem Inv.frame (h : Inv L R fs cat) (hk : ∀ q, R q → Kept fs fs' q) : Inv L R fs' cat where
  stored q e hq hc := (h.stored q e hq hc).imp fun _ hs => hs.frame (hk q hq)
  unlogged q hq hc := (h.unlogged q hq hc).frame (hk q hq)

/-- **The logs stay**, whatever was written to such a file. -/
theorem Inv.beside {q : Loc Name} {c : Name} (h : Inv L R fs cat)
    (hset : FileTree.OnlySets q c fs fs') (hc : ¬ IsTableFile c) : Inv L R fs' cat where
  stored p e hp he := (h.stored p e hp he).imp fun _ hs => hs.beside hset hc
  unlogged p hp hn := (h.unlogged p hp hn).beside hset hc

/-- A new log at one location. -/
theorem Inv.update (h : Inv L R fs cat) (hk : ∀ q, q ≠ p → Kept fs fs' q) {e : TableLog ρ}
    {idx : List ℕ} (he : Stored L fs' p e idx) : Inv L R fs' (Function.update cat p (some e)) where
  stored q e' hq hc := by
    by_cases hqp : q = p
    · subst hqp
      rw [Function.update_self, Option.some.injEq] at hc
      exact ⟨idx, hc ▸ he⟩
    · rw [Function.update_of_ne hqp] at hc
      exact (h.stored q e' hq hc).imp fun _ hs => hs.frame (hk q hqp)
  unlogged q hq hc := by
    by_cases hqp : q = p
    · subst hqp
      rw [Function.update_self] at hc
      simp at hc
    · rw [Function.update_of_ne hqp] at hc
      exact (h.unlogged q hq hc).frame (hk q hqp)

/-- A location that has no log still has none. -/
theorem Inv.unlog (h : Inv L R fs cat) (hk : ∀ q, q ≠ p → Kept fs fs' q) (hp : R p → cat p = none)
    (hu : Unlogged L fs' p) : Inv L R fs' cat where
  stored q e' hq hc := by
    by_cases hqp : q = p
    · subst hqp
      rw [hp hq] at hc
      simp at hc
    · exact (h.stored q e' hq hc).imp fun _ hs => hs.frame (hk q hqp)
  unlogged q hq hc := by
    by_cases hqp : q = p
    · subst hqp
      exact hu
    · exact (h.unlogged q hq hc).frame (hk q hqp)

theorem Inv.logged (h : Inv L R fs cat) (hp : R p) {s : Schema} {n : ℕ} {k : κ}
    (hr : Ready L fs p s n k) : ∃ e idx, cat p = some e ∧ Stored L fs p e idx := by
  rcases hc : cat p with _ | e
  · exact absurd hr (h.unlogged p hp hc).not_ready
  · obtain ⟨idx, hs⟩ := h.stored p e hp hc
    exact ⟨e, idx, rfl, hs⟩

theorem Inv.none_of_missing (h : Inv L R fs cat) (hp : R p) (hm : fs.lookup p = none) : cat p = none := by
  by_contra hne
  obtain ⟨e, he⟩ := Option.ne_none_iff_exists'.mp hne
  obtain ⟨idx, hs⟩ := h.stored p e hp he
  rw [hs.isDir] at hm
  simp at hm

/-- A path that is free, and not there, leads to nothing. -/
theorem missing_of_not_present (hr : r.Parsed) (hp : db.present fs r = false)
    (hnul : (db.tableDir r).hasNul = false) (hb : fs.blocked [] (db.tableDir r).loc = false) :
    fs.lookup (db.tableDir r).loc = none := by
  rcases hl : fs.lookup (db.tableDir r).loc with _ | _ | bytes
  · rfl
  · rw [present_of_dir hr hnul hl] at hp
    simp at hp
  · rw [FileTree.blocked_iff.mpr ⟨_, bytes, List.prefix_refl _, by simpa using hl⟩] at hb
    simp at hb

variable {w w' : World Fs (Loc Name)} {o : Outcome DbError Unit} {setup : σ}

/-- **`create_table` keeps the invariant**, however it ends: it logs a new table at a location that was
missing, or logs nothing. -/
theorem Inv.createTable (hL : L.Lawful) (h : Inv L R w.state cat) (hr : r.Parsed) (hl : Lossless w.fates)
    {schema : Schema} (hrun : createTable L db r schema setup w = (o, w')) :
    (o ≠ .ok () ∧ Inv L R w'.state cat) ∨
      (w.state.lookup (db.tableDir r).loc = none ∧ (db.tableDir r).hasNul = false ∧
        Inv L R w'.state (Function.update cat (db.tableDir r).loc (some (TableLog.new schema)))) := by
  rcases createTable_cases hl hrun with ⟨-, rfl, hsame⟩ | ⟨hpres, ⟨ho, k, hk⟩ | ⟨fs₁, hfs₁, hb, hnul, hleft⟩⟩
  · exact Or.inl ⟨by simp, hsame ▸ h⟩
  · exact Or.inl ⟨ho, h.frame fun q _ => hk ▸ Kept.mkdirs _ _ _ _⟩
  have hmiss := missing_of_not_present hr hpres hnul hb
  have hd : fs₁.lookup (db.tableDir r).loc = some .dir := by
    rw [hfs₁]
    simpa using FileTree.lookup_mkdirs_path w.state [] _ _ w.state.lookup_root hb le_rfl
      (List.prefix_refl (db.tableDir r).loc)
  have hnew : ∀ c, fs₁.lookup ((db.tableDir r).loc ++ [c]) = none := fun c => by
    rw [hfs₁]
    exact w.state.lookup_below_mkdirs hmiss _ c
  have hkept₁ : ∀ q, Kept w.state fs₁ q := fun q => hfs₁ ▸ Kept.mkdirs _ _ _ q
  have hnone : R (db.tableDir r).loc → cat (db.tableDir r).loc = none := fun hp =>
    h.none_of_missing hp hmiss
  have hkept : ∀ q, q ≠ (db.tableDir r).loc → Kept w.state w'.state q := fun q hq =>
    (hkept₁ q).trans (hleft.kept hq)
  -- a batch file without a commitment is no log
  have hbatch : ∀ {bytes fs'}, fs₁.Sets (db.tableDir r).loc (batchName 0) bytes fs' → o ≠ .ok () →
      w'.state = fs' → o ≠ .ok () ∧ Inv L R w'.state cat := by
    rintro bytes fs' hset ho rfl
    refine ⟨ho, h.unlog hkept hnone (Or.inr ?_)⟩
    rintro k ⟨bytes', n, hc, -⟩
    rw [hset.ne (by simpa using (batchName_ne_commitName 0).symm), hnew] at hc
    simp at hc
  cases hleft with
  | noParquet ho _ hset => exact Or.inl (hbatch hset ho rfl)
  | partBatch ho _ _ hset => exact Or.inl (hbatch hset ho rfl)
  | batchOnly ho _ _ hset _ => exact Or.inl (hbatch hset ho rfl)
  | @partCommit _ _ bytes fs₂ c bytes' cut ho hw _ hset hm hs _ _ hset' =>
    by_cases hcut : cut < bytes'.length
    · refine Or.inl ⟨ho, h.unlog hkept hnone (Or.inr ?_)⟩
      rintro k ⟨b, n, hc, hd'⟩
      rw [hset'.self] at hc
      obtain rfl : bytes'.take cut = b := by simpa using hc
      rw [hL.deserialize_take c bytes' cut hs hcut] at hd'
      simp at hd'
    · rw [List.take_of_length_le (by omega)] at hset'
      exact Or.inr ⟨hmiss, hnul, h.update hkept (Stored.new hd hnew hw hset hm hs hset')⟩
  | all hw hset hm hs hset' =>
    exact Or.inr ⟨hmiss, hnul, h.update hkept (Stored.new hd hnew hw hset hm hs hset')⟩

/-- **An insert that went through keeps the invariant** and extends one log by its batch. -/
theorem Inv.insert (hL : L.Lawful) (h : Inv L R w.state cat) (hr : r.Parsed) (hl : Lossless w.fates)
    (hp : R (db.tableDir r).loc) {batch : RecordBatch ρ}
    (hrun : insert L db r batch setup w = (.ok (), w')) :
    ∃ e, cat (db.tableDir r).loc = some e ∧ batch.schema = e.schema ∧
      Inv L R w'.state (Function.update cat (db.tableDir r).loc (some (e.push batch))) := by
  rcases insert_cases hr hl hrun with ⟨-, ho⟩ | ⟨n, k, -, hready, -, hleft⟩
  · exact absurd rfl ho
  obtain ⟨e, idx, hc, hs⟩ := h.logged hp hready
  refine ⟨e, hc, (hs.ready hL hready).1, ?_⟩
  have hkept := fun q hq => hleft.kept (q := q) hq
  obtain ⟨bytes, fs₁, k', bytes', hb, hset, hm, hk, hset'⟩ := hleft.of_ok
  exact h.update hkept (hs.insert hL hready hb hset hm hk hset')

end Inv

/-! ### Tidy directories: what is read back -/

/-- No directory in `p` is called like a batch. -/
def Tidy (fs : Fs) (p : Loc Name) : Prop := ∀ c, isParquet c = true → fs.lookup (p ++ [c]) ≠ some .dir

theorem eq_range_of_lt_length {idx : List ℕ} (hs : idx.Pairwise (· < ·)) (hb : ∀ i ∈ idx, i < idx.length) :
    idx = List.range idx.length := by
  have hnd : idx.Nodup := hs.imp fun h => ne_of_lt h
  have hperm : idx.Perm (List.range idx.length) :=
    (List.subperm_of_subset hnd fun i hi => List.mem_range.mpr (hb i hi)).perm_of_length_le (by simp)
  exact hperm.eq_of_pairwise (fun a b _ _ (hab : a < b) hba => absurd hab (lt_asymm hba)) hs
    List.pairwise_lt_range

section Tidy

variable {L} {fs : Fs} {p : Loc Name} {e : TableLog ρ} {idx : List ℕ}

/-- In a tidy directory every parquet name is a batch's. -/
theorem Batches.mem_names_iff (h : Batches L fs p e idx) (ht : Tidy fs p) {c : Name} :
    c ∈ parquetNames fs p ↔ c ∈ idx.map batchName := by
  rw [List.mem_map]
  constructor
  · intro hc
    obtain ⟨hparq, hl⟩ := mem_parquetNames.mp hc
    rcases hb : fs.lookup (p ++ [c]) with _ | _ | bytes
    · exact absurd hb hl
    · exact absurd hb (ht c hparq)
    · obtain ⟨i, hi, rfl⟩ := h.only c bytes hparq hb
      exact ⟨i, hi, rfl⟩
  · rintro ⟨i, hi, rfl⟩
    exact h.mem_names hi

/-- **The file numbers of a tidy table are `0`, `1`, ... without a gap.** -/
theorem Batches.numbers_eq_range (h : Batches L fs p e idx) (ht : Tidy fs p) :
    idx = List.range e.files.length := by
  have hnd : (idx.map batchName).Nodup :=
    List.Nodup.map batchName_injective (h.increasing.imp fun h => ne_of_lt h)
  have hlen : (parquetNames fs p).length = idx.length := by
    have hperm := (List.perm_ext_iff_of_nodup (nodup_parquetNames fs p) hnd).mpr fun _ =>
      h.mem_names_iff ht
    rw [hperm.length_eq, List.length_map]
  rw [← h.files.length_eq]
  exact eq_range_of_lt_length h.increasing fun i hi => by rw [← hlen]; exact h.below i hi

/-- **The parquet files of a tidy table**: one for each batch, in the order they are read. -/
theorem Batches.names_eq (h : Batches L fs p e idx) (ht : Tidy fs p) :
    parquetNames fs p = (readOrder e.files.length).map batchName := by
  have hidx := h.numbers_eq_range ht
  have hmem : ∀ c, c ∈ (fs.children p).filter isParquet ↔ c ∈ (List.range e.files.length).map batchName := by
    intro c
    rw [← hidx, ← h.mem_names_iff ht, mem_parquetNames, List.mem_filter, FileTree.mem_children, and_comm]
  have hperm : ((fs.children p).filter isParquet).Perm ((List.range e.files.length).map batchName) :=
    (List.perm_ext_iff_of_nodup ((FileTree.nodup_children fs p).filter _)
      (List.nodup_range.map batchName_injective)).mpr hmem
  have hsort : sorted ((List.range e.files.length).map batchName)
      = (readOrder e.files.length).map batchName := sorted_numbered _ _ _
  rw [parquetNames, ← hsort]
  exact ((List.perm_insertionSort _ _).trans (hperm.trans (List.perm_insertionSort _ _).symm)).eq_of_pairwise
    (fun a b _ _ (hab : a ≤ b) (hba : b ≤ a) => le_antisymm hab hba) (sorted_pairwise _) (sorted_pairwise _)

theorem Batches.file (h : Batches L fs p e idx) (ht : Tidy fs p) {i : ℕ} (hi : i < e.files.length) :
    BatchFile L fs p (batchName i) e.files[i] := by
  have hidx := h.numbers_eq_range ht
  have hlen := h.files.length_eq
  have hiidx : i < idx.length := by omega
  have hget := h.files.get (i := i) hiidx hi
  simp only [List.get_eq_getElem] at hget
  have hval : idx[i] = i := by simp [hidx]
  rwa [hval] at hget

theorem BatchFile.at (hL : L.Lawful) {i : ℕ} {b : RecordBatch ρ} (h : BatchFile L fs p (batchName i) b)
    (hcol : b.schema ≠ []) : BatchAt L fs p (batchName i) b := by
  obtain ⟨bytes, hw, hb⟩ := h
  exact ⟨noNul_batchName i, bytes, hb, (batchOf_write hL hw).mpr ⟨hcol, rfl⟩⟩

/-- Every file of a log is under its schema. -/
theorem Batches.schema_of_mem (h : Batches L fs p e idx) {b : RecordBatch ρ} (hb : b ∈ e.files) :
    b.schema = e.schema := by
  rcases List.mem_cons.mp hb with h0 | hmem
  · rw [h0]; rfl
  · exact h.schemas _ hmem

theorem Batches.firstSchema_tidy (h : Batches L fs p e idx) (hL : L.Lawful) (hcol : e.schema ≠ [])
    (ht : Tidy fs p) : FirstSchema L fs p e.schema :=
  h.firstSchema_of_head hL hcol fun c hc => by
    obtain ⟨i, -, rfl⟩ := List.mem_map.mp ((h.mem_names_iff ht).mp hc)
    exact numbered_zero_le _ (by decide) i

/-- **A tidy table reads back**: its files, in the order of their names. -/
theorem Batches.reads (h : Batches L fs p e idx) (hL : L.Lawful) (hcol : e.schema ≠ []) (ht : Tidy fs p) :
    ∃ bs, List.Forall₂ (BatchAt L fs p) (parquetNames fs p) bs ∧
      L.concatBatches e.schema bs = some e.readBack := by
  refine ⟨(readOrder e.files.length).map fun i => e.files.getD i (RecordBatch.newEmpty e.schema), ?_, ?_⟩
  · rw [h.names_eq ht, List.forall₂_map_left_iff, List.forall₂_map_right_iff, List.forall₂_same]
    intro i hi
    have hlt : i < e.files.length := mem_readOrder.mp hi
    rw [List.getD_eq_getElem _ _ hlt]
    exact (h.file ht hlt).at hL (by rw [h.schema_of_mem (List.getElem_mem hlt)]; exact hcol)
  · refine hL.concatBatches_eq _ _ fun b hb => ?_
    obtain ⟨i, hi, rfl⟩ := List.mem_map.mp hb
    have hlt : i < e.files.length := mem_readOrder.mp hi
    rw [List.getD_eq_getElem _ _ hlt]
    exact h.schema_of_mem (List.getElem_mem hlt)

end Tidy

end Db

end SxtEnterprise
