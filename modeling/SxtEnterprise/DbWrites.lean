import SxtEnterprise.DbReads

/-!
# What the database's writes leave behind

`create_table` and `insert` end in the same three steps: a batch file is written, a commitment is made
in memory, and the commitment file is written (`store`).  `StoreLeft` lists every way these steps can
end and what each leaves on disk; `createTable_cases` and `insert_cases` put the checks in front.  Every
later statement about a call that stopped, or did not, is read off these.
-/

namespace SxtEnterprise

open NumberedNames Paths FaultyRun

/-- The errors that say nothing about the request: only the checks answer with the others. -/
def DbError.Internal : DbError → Prop
  | .alreadyExists _ | .notFound _ | .schemaMismatch => False
  | _ => True

namespace Db

/-- The next call is cut short, with `cut` of its effect left. -/
def Cuts (fates : List Fate) (cut : ℕ) : Prop :=
  fates.headD .ok = .fail cut ∨ fates.headD .ok = .kill cut

theorem Cuts.unique {fates : List Fate} {cut cut' : ℕ} (h : Cuts fates cut) (h' : Cuts fates cut') : cut = cut' := by
  rcases h with h | h <;> rcases h' with h' | h' <;> rw [h] at h' <;> cases h' <;> rfl

variable {ρ κ σ : Type} (L : Libs ρ κ σ) (db : Db)

/-- The batch numbered `n` and the commitment made with it, written one after the other. -/
def store (dir : Path) (n : ℕ) (batch : RecordBatch ρ) (e : DbError) (made : Except Failure κ) :
    Io DbError Unit := do
  writeBatch L (batchPath dir n) batch
  let commitment ← orPanic e made
  writeCommitment L (commitPath dir) commitment

/-- The checks of `insert`: how many batches there are, and the commitment to extend. -/
def insertChecks (tableRef : TableRef) (batch : RecordBatch ρ) : Io DbError (ℕ × κ) := do
  let dir := db.tableDir tableRef
  let present ← Disk.pathExists dir
  if !present then Prog.fail (.notFound tableRef) else
  let first ← firstSchema L dir
  if batch.schema ≠ first.2 then Prog.fail .schemaMismatch else
  let commitment ← readCommitment L (commitPath dir)
  pure (first.1.length, commitment)

/-- The checks of `insert` after the listing. -/
def checksOf (dir : Path) (batch : RecordBatch ρ) (paths : List Path) : Io DbError (ℕ × κ) := do
  let first ← Prog.ofOption .empty paths.head?
  let schema ← readSchema L first
  if batch.schema ≠ schema then Prog.fail .schemaMismatch else
  let commitment ← readCommitment L (commitPath dir)
  pure (paths.length, commitment)

theorem insertChecks_eq_checksOf (r : TableRef) (batch : RecordBatch ρ) : insertChecks L db r batch = (do
    let present ← Disk.pathExists (db.tableDir r)
    if !present then Prog.fail (.notFound r) else do
      let paths ← parquetPaths (db.tableDir r)
      checksOf L (db.tableDir r) batch paths) := by
  simp only [insertChecks, firstSchema, checksOf, bind_assoc, pure_bind]

theorem insert_eq (r : TableRef) (batch : RecordBatch ρ) (setup : σ) :
    insert L db r batch setup = (do
      let checked ← insertChecks L db r batch
      store L (db.tableDir r) checked.1 batch .append (L.appendBatch checked.2 batch setup)) := by
  rw [insert, insertChecks]
  simp only [bind_assoc]
  refine congrArg (Disk.pathExists (db.tableDir r) >>= ·) (funext fun present => ?_)
  cases present with
  | false => rfl
  | true =>
    simp only [Bool.not_true, Bool.false_eq_true, if_false, firstSchema, bind_assoc, pure_bind]
    refine congrArg (parquetPaths (db.tableDir r) >>= ·) (funext fun paths => ?_)
    refine congrArg (Prog.ofOption DbError.empty paths.head? >>= ·) (funext fun first => ?_)
    refine congrArg (readSchema L first >>= ·) (funext fun s => ?_)
    by_cases hs : batch.schema = s
    · simp only [hs, ne_eq, not_true_eq_false, if_false, bind_assoc, pure_bind]
      rfl
    · simp only [ne_eq, hs, not_false_eq_true, if_true]
      rfl

theorem createTable_eq (r : TableRef) (schema : Schema) (setup : σ) :
    createTable L db r schema setup = (do
      let present ← Disk.pathExists (db.tableDir r)
      if present then Prog.fail (.alreadyExists r) else do
        Disk.createDirAll (db.tableDir r)
        store L (db.tableDir r) 0 (RecordBatch.newEmpty schema) .commit
          (L.commitBatch (RecordBatch.newEmpty schema) 0 setup)) := rfl

/-! ### The checks -/

/-- What `insert` has found in `p` once its checks have passed. -/
structure Ready (fs : Fs) (p : Loc Name) (schema : Schema) (n : ℕ) (c : κ) : Prop where
  isDir : fs.lookup p = some .dir
  first : FirstSchema L fs p schema
  count : n = (parquetNames fs p).length
  commitment : CommitmentAt L fs p c

variable {L db} {fs : Fs} {r : TableRef}

theorem eval_checksOf_ok {dir : Path} (hdir : dir.Straight) (hnul : dir.hasNul = false) {names : List Name}
    (hnames : Entries names) {batch : RecordBatch ρ} {n : ℕ} {k : κ} :
    (checksOf L dir batch (names.map (entryPath dir))).eval fs = .ok (n, k) ↔ n = names.length ∧
      (∃ c, names.head? = some c ∧ SchemaAt L fs dir.loc c batch.schema) ∧ CommitmentAt L fs dir.loc k := by
  have hr1 : (do
      let commitment ← readCommitment L (commitPath dir)
      pure ((names.map (entryPath dir)).length, commitment) : Io DbError _).Reader :=
    (reader_readCommitment L _).bind fun _ => Prog.Reader.pure _
  have hr2 : ∀ schema, (if batch.schema ≠ schema then Prog.fail .schemaMismatch else do
      let commitment ← readCommitment L (commitPath dir)
      pure ((names.map (entryPath dir)).length, commitment) : Io DbError _).Reader := fun schema => by
    split
    · exact Prog.Reader.fail _
    · exact hr1
  rw [checksOf, (Prog.Reader.ofOption _ _).eval_bind_ok fun _ => (reader_readSchema L _).bind hr2]
  simp only [(reader_readSchema L _).eval_bind_ok hr2, eval_ofOption_ok, List.head?_map, Option.map_eq_some_iff]
  constructor
  · rintro ⟨_, ⟨c, hc, rfl⟩, s, hs, h⟩
    by_cases hbs : batch.schema = s
    · simp only [ne_eq, hbs, not_true_eq_false, if_false] at h
      obtain ⟨k', hk, hn⟩ := ((reader_readCommitment L _).eval_bind_ok fun _ => Prog.Reader.pure _).mp h
      change Outcome.ok ((names.map (entryPath dir)).length, k') = Outcome.ok (n, k) at hn
      rw [Outcome.ok.injEq, Prod.mk.injEq, List.length_map] at hn
      obtain ⟨rfl, rfl⟩ := hn
      rw [← hbs] at hs
      exact ⟨rfl, ⟨c, hc, (eval_readSchema_entry L hdir hnul (hnames c (List.mem_of_head? hc))).mp hs⟩,
        (eval_readCommitment_dir L hdir hnul).mp hk⟩
    · simp only [ne_eq, hbs, not_false_eq_true, if_true] at h
      simp [Prog.eval] at h
  · rintro ⟨rfl, ⟨c, hc, hs⟩, hk⟩
    refine ⟨_, ⟨c, hc, rfl⟩, _, (eval_readSchema_entry L hdir hnul (hnames c (List.mem_of_head? hc))).mpr hs, ?_⟩
    simp only [ne_eq, not_true_eq_false, if_false]
    refine ((reader_readCommitment L _).eval_bind_ok fun _ => Prog.Reader.pure _).mpr
      ⟨k, (eval_readCommitment_dir L hdir hnul).mpr hk, ?_⟩
    change Outcome.ok _ = Outcome.ok _
    rw [List.length_map]

theorem reader_checksOf (L : Libs ρ κ σ) (dir : Path) (batch : RecordBatch ρ) (paths : List Path) :
    (checksOf L dir batch paths).Reader := by
  refine (Prog.Reader.ofOption _ _).bind fun _ => (reader_readSchema L _).bind fun _ => ?_
  split
  · exact Prog.Reader.fail _
  · exact (reader_readCommitment L _).bind fun _ => Prog.Reader.pure _

theorem eval_insertChecks_ok (hr : r.Parsed) {batch : RecordBatch ρ} {n : ℕ} {c : κ} :
    (insertChecks L db r batch).eval fs = .ok (n, c) ↔
      db.present fs r = true ∧ Ready L fs (db.tableDir r).loc batch.schema n c := by
  have hdir := tableDir_straight db hr
  have hreader := reader_checksOf L (db.tableDir r) batch
  rw [insertChecks_eq_checksOf, eval_ifPresent ((reader_parquetPaths _).bind hreader)]
  split
  · rename_i hp
    have hnul := noNul_of_present hp
    rw [(reader_parquetPaths _).eval_bind_ok hreader]
    simp only [eval_parquetPaths_ok hdir]
    constructor
    · rintro ⟨_, ⟨-, hd, rfl⟩, h⟩
      obtain ⟨hn, hs, hk⟩ := (eval_checksOf_ok hdir hnul (entries_parquetNames _ _)).mp h
      exact ⟨hp, hd, hs, hn, hk⟩
    · rintro ⟨-, hd, hs, hn, hk⟩
      exact ⟨_, ⟨hnul, hd, rfl⟩, (eval_checksOf_ok hdir hnul (entries_parquetNames _ _)).mpr ⟨hn, hs, hk⟩⟩
  · rename_i hp
    simp [hp]

/-- A program that only reads, makes `k` calls, is only stopped by them, and does not panic. -/
structure Reads {ε α : Type} (k : ℕ) (m : Io ε α) : Prop where
  reader : m.Reader
  calls : m.Calls k
  steady : m.Steady k
  noPanic : m.NoPanic

theorem Reads.bind {ε α β : Type} {j k : ℕ} {m : Io ε α} {f : α → Io ε β} (hm : Reads j m)
    (hf : ∀ a, Reads k (f a)) : Reads (j + k) (m >>= f) where
  reader := hm.reader.bind fun a => (hf a).reader
  calls := hm.calls.bind fun a => (hf a).calls
  steady := hm.steady.bind hm.calls hm.reader (fun a => (hf a).steady) fun a => (hf a).reader
  noPanic := hm.noPanic.bind fun a => (hf a).noPanic

theorem Reads.pure {ε α : Type} (a : α) : Reads 0 (pure a : Io ε α) :=
  ⟨Prog.Reader.pure a, Prog.Calls.pure a, Prog.Steady.pure a, Prog.NoPanic.pure a⟩

theorem Reads.fail {ε α : Type} (k : ℕ) (e : ε) : Reads k (Prog.fail e : Io ε α) :=
  ⟨Prog.Reader.fail e, Prog.Calls.fail k e, Prog.Steady.fail k e, Prog.NoPanic.fail e⟩

theorem Reads.ofOption {ε α : Type} (e : ε) (o : Option α) : Reads 0 (Prog.ofOption e o : Io ε α) :=
  ⟨Prog.Reader.ofOption e o, Prog.Calls.ofOption e o, Prog.Steady.ofOption e o, Prog.NoPanic.ofOption e o⟩

theorem reads_readCall {ε α : Type} [FromIo ε] {p : Path} {f : List ℕ → Fs → Option α} :
    Reads 1 (Disk.readCall p f : Io ε α) :=
  ⟨Disk.reader_readCall f, Disk.calls_readCall, Disk.steady_readCall, Disk.noPanic_readCall⟩

theorem reads_pathExists {ε : Type} {p : Path} : Reads 0 (Disk.pathExists p : Io ε Bool) :=
  ⟨Disk.reader_pathExists, Disk.calls_pathExists, Disk.steady_pathExists, Disk.noPanic_pathExists⟩

theorem reads_parquetBytes (n : Node Bytes) : Reads 0 (parquetBytes n) := by
  cases n with
  | dir => exact Reads.fail 0 _
  | file b => exact Reads.pure _

theorem reads_readSchema (L : Libs ρ κ σ) (path : Path) : Reads 1 (readSchema L path) :=
  reads_readCall.bind fun n => (reads_parquetBytes n).bind fun _ => Reads.ofOption _ _

theorem reads_parquetPaths (dir : Path) : Reads 1 (parquetPaths dir) := reads_readCall.bind fun _ => Reads.pure _

theorem reads_checksOf (L : Libs ρ κ σ) (dir : Path) (batch : RecordBatch ρ) (paths : List Path) :
    Reads 2 (checksOf L dir batch paths) := by
  have hcommit : Reads 1 (readCommitment L (commitPath dir)) :=
    reads_readCall.bind fun _ => (Reads.ofOption _ _).bind fun _ => Reads.pure _
  refine (Reads.ofOption _ _).bind (k := 2) fun first => (reads_readSchema L first).bind (k := 1) fun schema => ?_
  split
  · exact Reads.fail 1 _
  · exact hcommit.bind fun _ => Reads.pure _

/-- The checks make three calls: the listing, opening the first file, reading the commitment. -/
theorem reads_insertChecks (L : Libs ρ κ σ) (db : Db) (r : TableRef) (batch : RecordBatch ρ) :
    Reads 3 (insertChecks L db r batch) := by
  rw [insertChecks_eq_checksOf]
  refine reads_pathExists.bind (k := 3) fun present => ?_
  split
  · exact Reads.fail 3 _
  · exact (reads_parquetPaths _).bind fun paths => reads_checksOf L _ batch paths

/-- Reading the schema makes two calls: the listing, and opening the first file. -/
theorem reads_schema (L : Libs ρ κ σ) (db : Db) (r : TableRef) : Reads 2 (schema L db r) := by
  rw [schema]
  refine reads_pathExists.bind (k := 2) fun present => ?_
  split
  · exact Reads.fail 2 _
  · exact (reads_parquetPaths _).bind (k := 1) fun paths => (Reads.ofOption _ _).bind fun _ => reads_readSchema L _

/-! ### The three steps of a write -/

/-- How storing batch `n` in `p` can end once its file has been created, and what is then on disk. -/
inductive StoreLeft (L : Libs ρ κ σ) (fs : Fs) (p : Loc Name) (n : ℕ) (batch : RecordBatch ρ)
    (made : Except Failure κ) (fates : List Fate) : Outcome DbError Unit → Fs → Prop where
  /-- The parquet writer refused the batch: its file is empty. -/
  | noParquet {o fs'} (ho : o ≠ .ok ()) (hbatch : L.writeParquet batch = none)
      (hset : fs.Sets p (batchName n) [] fs') : StoreLeft L fs p n batch made fates o fs'
  /-- The batch file was cut short. -/
  | partBatch {o fs' bytes cut} (ho : o ≠ .ok ()) (hbatch : L.writeParquet batch = some bytes)
      (hcut : Cuts (fates.drop 1) cut) (hset : fs.Sets p (batchName n) (bytes.take cut) fs') :
      StoreLeft L fs p n batch made fates o fs'
  /-- The batch file is whole; the commitment file was not touched. -/
  | batchOnly {o fs' bytes} (ho : o ≠ .ok ()) (hbatch : L.writeParquet batch = some bytes)
      (hwhole : ∀ cut, ¬ Cuts (fates.drop 1) cut) (hset : fs.Sets p (batchName n) bytes fs')
      (hwhy : ∀ c bytes', made = .ok c → L.serialize c = some bytes' →
        ((fates.drop 2).headD .ok).stops = true ∨ fs.lookup (p ++ [commitName]) = some .dir) :
      StoreLeft L fs p n batch made fates o fs'
  /-- The batch file is whole; the commitment file was cut short. -/
  | partCommit {o fs' bytes fs₁ c bytes' cut} (ho : o ≠ .ok ())
      (hbatch : L.writeParquet batch = some bytes) (hwhole : ∀ cut, ¬ Cuts (fates.drop 1) cut)
      (hset : fs.Sets p (batchName n) bytes fs₁) (hmade : made = .ok c)
      (hcommit : L.serialize c = some bytes') (hopen : ((fates.drop 2).headD .ok).stops = false)
      (hcut : Cuts (fates.drop 3) cut)
      (hset' : fs₁.Sets p commitName (bytes'.take cut) fs') : StoreLeft L fs p n batch made fates o fs'
  /-- Both files are whole. -/
  | all {fs' bytes fs₁ c bytes'} (hbatch : L.writeParquet batch = some bytes)
      (hset : fs.Sets p (batchName n) bytes fs₁) (hmade : made = .ok c)
      (hcommit : L.serialize c = some bytes') (hset' : fs₁.Sets p commitName bytes' fs') :
      StoreLeft L fs p n batch made fates (.ok ()) fs'

/-- **A write that ended well** has written both files. -/
theorem StoreLeft.of_ok {fs fs' : Fs} {p : Loc Name} {n : ℕ} {batch : RecordBatch ρ} {made : Except Failure κ}
    {fates : List Fate} (h : StoreLeft L fs p n batch made fates (.ok ()) fs') :
    ∃ bytes fs₁ c bytes', L.writeParquet batch = some bytes ∧ fs.Sets p (batchName n) bytes fs₁ ∧ made = .ok c ∧
      L.serialize c = some bytes' ∧ fs₁.Sets p commitName bytes' fs' := by
  generalize ho : (Outcome.ok () : Outcome DbError Unit) = o at h
  cases h with
  | noParquet h' _ _ => exact absurd ho.symm h'
  | partBatch h' _ _ _ => exact absurd ho.symm h'
  | batchOnly h' _ _ _ _ => exact absurd ho.symm h'
  | partCommit h' _ _ _ _ _ _ _ _ => exact absurd ho.symm h'
  | all hb hset hm hk hset' => exact ⟨_, _, _, _, hb, hset, hm, hk, hset'⟩

theorem not_cuts {fates : List Fate} (h : (fates.headD .ok).stops = false) (cut : ℕ) :
    ¬ Cuts fates cut := by
  rintro (hc | hc) <;> rw [hc] at h <;> simp [Fate.stops] at h

theorem orPanic_stop {ε α : Type} {e : ε} {x : Except Failure α} {w : World Fs (Loc Name)}
    (h : ∀ a, x ≠ .ok a) : (orPanic e x w).2 = w ∧ ∀ a, (orPanic e x w).1 ≠ .ok a := by
  rcases x with (_ | _) | a
  · exact ⟨rfl, by simp [orPanic]⟩
  · exact ⟨rfl, by simp [orPanic, Prog.ofOutcome]⟩
  · exact absurd rfl (h a)

/-- Storing a batch makes four calls: each file is created, and written. -/
theorem calls_store (dir : Path) (n : ℕ) (batch : RecordBatch ρ) (e : DbError) (made : Except Failure κ) :
    (store L dir n batch e made).Calls 4 := by
  have hpanic : (orPanic e made : Io DbError κ).Calls 0 := by
    rcases made with (_ | _) | c
    · exact Prog.Calls.fail 0 _
    · intro w w' a _ h
      simp [orPanic, Prog.ofOutcome] at h
    · exact Prog.Calls.done _
  refine Prog.Calls.bind (j := 2) (k := 2) ?_ fun _ => ?_
  · exact Disk.calls_create.bind (k := 1) fun _ => (Prog.Calls.ofOption _ _).bind (k := 1) fun _ => Disk.calls_writeAll
  · exact hpanic.bind (k := 2) fun _ => (Prog.Calls.ofOption _ _).bind (k := 2) fun _ =>
      Disk.calls_create.bind (k := 1) fun _ => Disk.calls_writeAll

theorem noPanic_writeBatch (path : Path) (batch : RecordBatch ρ) : (writeBatch L path batch).NoPanic :=
  Disk.noPanic_create.bind fun _ => (Prog.NoPanic.ofOption _ _).bind fun _ => Disk.noPanic_writeAll

/-- **Only the commitment library makes a store panic**, once the batch file is written. -/
theorem store_panic_iff {dir : Path} {n : ℕ} {batch : RecordBatch ρ} {e : DbError} {made : Except Failure κ}
    {w : World Fs (Loc Name)} : (store L dir n batch e made w).1 = .panic ↔
      (writeBatch L (batchPath dir n) batch w).1 = .ok () ∧ made = .error .panic := by
  rw [store, Prog.andThen_run]
  rcases hb : (writeBatch L (batchPath dir n) batch w).1 with _ | _ | _ | _
  · rcases made with (_ | _) | c
    · simp [orPanic, Prog.andThen_run, Prog.castStop]
    · simp [orPanic, Prog.ofOutcome, Prog.andThen_run, Prog.castStop]
    · have hw : (writeCommitment L (commitPath dir) c).NoPanic :=
        (Prog.NoPanic.ofOption _ _).bind fun _ => Disk.noPanic_write
      simpa [orPanic, Prog.andThen_run] using hw _
  · simp [Prog.castStop]
  · exact absurd hb (noPanic_writeBatch _ _ w)
  · simp [Prog.castStop]

section Store

variable {p : Loc Name} {dir : Path} {w w' : World Fs (Loc Name)} {o : Outcome DbError Unit}

/-- Writing a batch file: it is not created, or cut short, or whole. -/
theorem writeBatch_cases {path : Path} {q : Loc Name} {c : Name} {batch : RecordBatch ρ}
    (hp : path.loc = q ++ [c]) (hl : Lossless w.fates) (h : writeBatch L path batch w = (o, w')) :
    (w'.state = w.state ∧ o ≠ .ok () ∧ (path.hasNul = true ∨ (w.fates.headD .ok).stops = true ∨
        w.state.lookup q ≠ some .dir ∨ w.state.lookup (q ++ [c]) = some .dir)) ∨
      (path.hasNul = false ∧ (w.fates.headD .ok).stops = false ∧
      ((o ≠ .ok () ∧ L.writeParquet batch = none ∧ w.state.Sets q c [] w'.state) ∨
      (∃ bytes, L.writeParquet batch = some bytes ∧
        ((o ≠ .ok () ∧ ∃ cut, Cuts (w.fates.drop 1) cut ∧ w.state.Sets q c (bytes.take cut) w'.state) ∨
        (o = .ok () ∧ (∀ cut, ¬ Cuts (w.fates.drop 1) cut) ∧ w'.fates = w.fates.drop 2 ∧
          w.state.Sets q c bytes w'.state))))) := by
  rcases hc : (Disk.create path : Io DbError Unit) w with ⟨o₁, w₁⟩
  rcases Disk.create_cases hp hl hc with ⟨hsame, ho₁⟩ | ⟨rfl, hnul, hs, hfates, hset⟩
  · left
    obtain ⟨h1, h2⟩ := Prog.bind_run_stop (m := Disk.create path)
      (f := fun _ => do
        let bytes ← Prog.ofOption DbError.parquet (L.writeParquet batch)
        Disk.writeAll path bytes) (w := w) (by rw [hc]; rintro ⟨⟩; exact ho₁)
    rw [hc] at h1
    change writeBatch L path batch w = (o, w') at h
    rw [writeBatch] at h
    rw [h] at h1 h2
    exact ⟨by rw [show w' = w₁ from h1, hsame], h2 (),
      Disk.create_stops (ε := DbError) hp hl (by rw [hc]; exact ho₁)⟩
  · right
    refine ⟨hnul, hs, ?_⟩
    rw [writeBatch, Prog.bind_run_ok hc] at h
    rcases hb : L.writeParquet batch with _ | bytes
    · rw [hb] at h
      obtain ⟨rfl, rfl⟩ : o = .err .parquet ∧ w' = w₁ := by
        change (Outcome.err DbError.parquet, w₁) = (o, w') at h
        rw [Prod.mk.injEq] at h
        exact ⟨h.1.symm, h.2.symm⟩
      exact Or.inl ⟨by simp, rfl, hset⟩
    · rw [hb] at h
      change Disk.writeAll path bytes w₁ = (o, w') at h
      have hl₁ : Lossless w₁.fates := by rw [hfates]; exact hl.tail
      obtain ⟨hfates', hw⟩ := Disk.writeAll_cases hp hnul hl₁ hset.self h
      rw [hfates] at hfates' hw
      right
      refine ⟨bytes, rfl, ?_⟩
      rw [← List.drop_one] at hfates' hw
      rcases hw with ⟨ho, cut, hcut, hset'⟩ | ⟨ho, hs', hset'⟩
      · exact Or.inl ⟨ho, cut, hcut, hset.again hset'⟩
      · refine Or.inr ⟨ho, not_cuts hs', ?_, hset.again hset'⟩
        rw [hfates', ← List.drop_one, List.drop_drop]

/-- When a batch file is written. -/
theorem writeBatch_ok_iff {path : Path} {q : Loc Name} {c : Name} {batch : RecordBatch ρ} (hp : path.loc = q ++ [c])
    (hl : Lossless w.fates) : (writeBatch L path batch w).1 = .ok () ↔
      path.hasNul = false ∧ (w.fates.headD .ok).stops = false ∧ w.state.lookup q = some .dir ∧
        w.state.lookup (q ++ [c]) ≠ some .dir ∧ (∃ bytes, L.writeParquet batch = some bytes) ∧
          ∀ cut, ¬ Cuts (w.fates.drop 1) cut := by
  rcases hw : writeBatch L path batch w with ⟨o₁, w₁⟩
  have hcases := writeBatch_cases hp hl hw
  constructor
  · rintro rfl
    rcases hcases with ⟨-, ho, -⟩ | ⟨hnul, hs, ⟨ho, -⟩ | ⟨bytes, hb, ⟨ho, -⟩ | ⟨-, hwhole, -, hset⟩⟩⟩
    · exact absurd rfl ho
    · exact absurd rfl ho
    · exact absurd rfl ho
    · exact ⟨hnul, hs, hset.isDir, hset.notDir, ⟨bytes, hb⟩, hwhole⟩
  · rintro ⟨hnul, hs, hd, hfree, ⟨bytes, hb⟩, hwhole⟩
    rcases hcases with ⟨-, -, hwhy⟩ | ⟨-, -, ⟨-, hnone, -⟩ | ⟨-, -, ⟨-, cut, hcut, -⟩ | ⟨ho, -⟩⟩⟩
    · rw [hnul, hs] at hwhy
      simp [hd, hfree] at hwhy
    · rw [hb] at hnone
      simp at hnone
    · exact absurd hcut (hwhole cut)
    · exact ho

/-- Writing the commitment file: not created, or cut short, or whole. -/
theorem writeCommitment_cases {path : Path} {q : Loc Name} {c : Name} {k : κ}
    (hp : path.loc = q ++ [c]) (hl : Lossless w.fates) (h : writeCommitment L path k w = (o, w')) :
    (w'.state = w.state ∧ o ≠ .ok () ∧ ∀ bytes, L.serialize k = some bytes →
        path.hasNul = true ∨ (w.fates.headD .ok).stops = true ∨
          w.state.lookup q ≠ some .dir ∨ w.state.lookup (q ++ [c]) = some .dir) ∨
      ((w.fates.headD .ok).stops = false ∧ ∃ bytes, L.serialize k = some bytes ∧
      ((o ≠ .ok () ∧ ∃ cut, Cuts (w.fates.drop 1) cut ∧ w.state.Sets q c (bytes.take cut) w'.state) ∨
        (o = .ok () ∧ w.state.Sets q c bytes w'.state))) := by
  rw [writeCommitment] at h
  rcases hb : L.serialize k with _ | bytes
  · rw [hb] at h
    change (Outcome.err DbError.encode, w) = (o, w') at h
    rw [Prod.mk.injEq] at h
    exact Or.inl ⟨by rw [← h.2], by rw [← h.1]; simp, by simp⟩
  · rw [hb] at h
    change Disk.write path bytes w = (o, w') at h
    rcases hc : (Disk.create path : Io DbError Unit) w with ⟨o₁, w₁⟩
    rcases Disk.create_cases hp hl hc with ⟨hsame, ho₁⟩ | ⟨rfl, hnul, hs, hfates, hset⟩
    · left
      obtain ⟨h1, h2⟩ := Prog.bind_run_stop (m := Disk.create path)
        (f := fun _ => (Disk.writeAll path bytes : Io DbError Unit)) (w := w)
        (by rw [hc]; rintro ⟨⟩; exact ho₁)
      rw [Disk.write] at h
      rw [hc] at h1
      rw [h] at h1 h2
      exact ⟨by rw [show w' = w₁ from h1, hsame], h2 (), fun _ _ =>
        Disk.create_stops (ε := DbError) hp hl (by rw [hc]; exact ho₁)⟩
    · right
      refine ⟨hs, ?_⟩
      rw [Disk.write, Prog.bind_run_ok hc] at h
      have hl₁ : Lossless w₁.fates := by rw [hfates]; exact hl.tail
      obtain ⟨-, hw⟩ := Disk.writeAll_cases hp hnul hl₁ hset.self h
      rw [hfates, ← List.drop_one] at hw
      refine ⟨bytes, rfl, ?_⟩
      rcases hw with ⟨ho, cut, hcut, hset'⟩ | ⟨ho, -, hset'⟩
      · exact Or.inl ⟨ho, cut, hcut, hset.again hset'⟩
      · exact Or.inr ⟨ho, hset.again hset'⟩

theorem lossless_drop {fates : List Fate} (h : Lossless fates) (k : ℕ) : Lossless (fates.drop k) :=
  fun lost hmem => h lost (List.mem_of_mem_drop hmem)

/-- **Every way a write can end.** -/
theorem store_cases {n : ℕ} {batch : RecordBatch ρ} {e : DbError} {made : Except Failure κ}
    (hp : dir.loc = p) (hl : Lossless w.fates) (h : store L dir n batch e made w = (o, w')) :
    (w'.state = w.state ∧ o ≠ .ok () ∧ (dir.hasNul = true ∨ (w.fates.headD .ok).stops = true ∨
        w.state.lookup p ≠ some .dir ∨ w.state.lookup (p ++ [batchName n]) = some .dir)) ∨
      ((w.fates.headD .ok).stops = false ∧ StoreLeft L w.state p n batch made w.fates o w'.state) := by
  rcases hb : writeBatch L (batchPath dir n) batch w with ⟨o₁, w₁⟩
  have hbp : (batchPath dir n).loc = p ++ [batchName n] := by rw [loc_batchPath, hp]
  have hcp : (commitPath dir).loc = p ++ [commitName] := by rw [loc_commitPath, hp]
  have hstop : o₁ ≠ .ok () → w' = w₁ ∧ o ≠ .ok () := by
    intro ho₁
    obtain ⟨h1, h2⟩ := Prog.bind_run_stop (m := writeBatch L (batchPath dir n) batch)
      (f := fun _ => do
        let commitment ← orPanic e made
        writeCommitment L (commitPath dir) commitment) (w := w) (by rw [hb]; rintro ⟨⟩; exact ho₁)
    rw [hb] at h1
    rw [store] at h
    rw [h] at h1 h2
    exact ⟨h1, h2 ()⟩
  rcases writeBatch_cases hbp hl hb with ⟨hsame, ho₁, hwhy⟩ | ⟨hnul, hs, hcreated⟩
  · obtain ⟨rfl, ho⟩ := hstop ho₁
    rw [hasNul_batchPath] at hwhy
    exact Or.inl ⟨hsame, ho, hwhy⟩
  right
  rw [hasNul_batchPath] at hnul
  refine ⟨hs, ?_⟩
  rcases hcreated with ⟨ho₁, hnone, hset⟩ | ⟨bytes, hbytes, ⟨ho₁, cut, hcut, hset⟩ | ⟨rfl, hwhole, hfates, hset⟩⟩
  · obtain ⟨rfl, ho⟩ := hstop ho₁
    exact .noParquet ho hnone hset
  · obtain ⟨rfl, ho⟩ := hstop ho₁
    exact .partBatch ho hbytes hcut hset
  · rw [store, Prog.bind_run_ok hb] at h
    rcases hm : made with f | c
    · -- the commitment library refused the batch, or panicked
      obtain ⟨h1, h2⟩ := orPanic_stop (e := e) (x := made) (w := w₁) (by rw [hm]; simp)
      obtain ⟨h3, h4⟩ := Prog.bind_run_stop (m := orPanic e made)
        (f := fun commitment => writeCommitment L (commitPath dir) commitment) (w := w₁) h2
      rw [h] at h3 h4
      rw [h1] at h3
      obtain rfl : w' = w₁ := h3
      exact .batchOnly (h4 ()) hbytes hwhole hset (by simp)
    · rw [hm] at h
      change writeCommitment L (commitPath dir) c w₁ = (o, w') at h
      have hl₁ : Lossless w₁.fates := by rw [hfates]; exact lossless_drop hl 2
      rcases writeCommitment_cases hcp hl₁ h with ⟨hsame, ho, hwhy⟩ | ⟨hopen, bytes', hb', hw⟩
      · refine .batchOnly ho hbytes hwhole (hsame ▸ hset) fun c' bytes' hc' hb' => ?_
        obtain rfl := Except.ok.inj hc'
        rcases hwhy bytes' hb' with h | h | h | h
        · rw [hasNul_commitPath, hnul] at h
          simp at h
        · rw [hfates] at h
          exact Or.inl h
        · exact absurd ((hset.isDir_iff p).mpr hset.isDir) h
        · exact Or.inr ((hset.isDir_iff _).mp h)
      · rw [hfates] at hopen hw
        rw [List.drop_drop] at hw
        rcases hw with ⟨ho, cut, hcut, hset'⟩ | ⟨rfl, hset'⟩
        · exact .partCommit ho hbytes hwhole hset rfl hb' hopen hcut hset'
        · exact .all hbytes hset rfl hb' hset'

end Store

/-! ### Whole calls -/

section Calls

variable {w w' : World Fs (Loc Name)} {o : Outcome DbError Unit}

/-- **Every way checks and then a write can end.** -/
theorem checked_store_cases {m : Io DbError (ℕ × κ)} {j : ℕ} (hm : Reads j m) {dir : Path} {batch : RecordBatch ρ}
    (made : κ → Except Failure κ) (hl : Lossless w.fates) (h : (do
      let checked ← m
      store L dir checked.1 batch .append (made checked.2)) w = (o, w')) :
    (w'.state = w.state ∧ o ≠ .ok ()) ∨
      ∃ n c, m.eval w.state = .ok (n, c) ∧ (∀ f ∈ w.fates.take (j + 1), f.stops = false) ∧
        StoreLeft L w.state dir.loc n batch (made c) (w.fates.drop j) o w'.state := by
  rcases hc : m w with ⟨o₁, w₁⟩
  have hstate : w₁.state = w.state := by
    have := hm.reader.state w
    rw [hc] at this
    exact this
  by_cases ho₁ : ∃ x, o₁ = .ok x
  · obtain ⟨⟨n, c⟩, rfl⟩ := ho₁
    have heval := hm.reader.honest w (n, c) hl (by rw [hc])
    obtain ⟨hfates, hdrop⟩ := hm.calls w w₁ (n, c) hl hc
    rw [Prog.bind_run_ok hc] at h
    have hl₁ : Lossless w₁.fates := by rw [hdrop]; exact lossless_drop hl j
    rcases store_cases rfl hl₁ h with ⟨hsame, ho, -⟩ | ⟨hs, hleft⟩
    · exact Or.inl ⟨hsame.trans hstate, ho⟩
    · rw [hstate, hdrop] at hleft
      refine Or.inr ⟨n, c, heval, ?_, hleft⟩
      intro f hf
      rw [List.take_add_one, List.mem_append] at hf
      rcases hf with hf | hf
      · exact hfates f hf
      · rw [hdrop] at hs
        rw [Option.mem_toList] at hf
        have hhead : (w.fates.drop j).headD .ok = f := by
          rw [List.headD_eq_head?_getD, List.head?_drop, hf]
          rfl
        rw [← hhead]
        exact hs
  · obtain ⟨h1, h2⟩ := Prog.bind_run_stop (m := m)
      (f := fun checked => store L dir checked.1 batch .append (made checked.2)) (w := w) (by
        rw [hc]
        exact fun a ha => ho₁ ⟨a, ha⟩)
    rw [hc] at h1
    rw [h] at h1 h2
    exact Or.inl ⟨by rw [show w' = w₁ from h1, hstate], h2 ()⟩

/-- **Checks that pass, and a batch file that can be created**, lead to the writes. -/
theorem checked_store_left {m : Io DbError (ℕ × κ)} {j : ℕ} (hm : Reads j m) {dir : Path} {batch : RecordBatch ρ}
    (made : κ → Except Failure κ) (hl : Lossless w.fates) {n : ℕ} {c : κ} (heval : m.eval w.state = .ok (n, c))
    (hgo : ∀ f ∈ w.fates.take (j + 1), f.stops = false) (hnul : dir.hasNul = false)
    (hd : w.state.lookup dir.loc = some .dir) (hfree : w.state.lookup (dir.loc ++ [batchName n]) ≠ some .dir)
    (h : (do
      let checked ← m
      store L dir checked.1 batch .append (made checked.2)) w = (o, w')) :
    StoreLeft L w.state dir.loc n batch (made c) (w.fates.drop j) o w'.state := by
  have hok := hm.steady w hl fun f hf => hgo f (List.take_subset_take_left w.fates (Nat.le_succ j) hf)
  rw [heval] at hok
  rcases hc : m w with ⟨o₁, w₁⟩
  rw [hc] at hok
  obtain rfl : o₁ = .ok (n, c) := hok
  have hstate : w₁.state = w.state := by
    have := hm.reader.state w
    rw [hc] at this
    exact this
  obtain ⟨-, hdrop⟩ := hm.calls w w₁ (n, c) hl hc
  rw [Prog.bind_run_ok hc] at h
  have hl₁ : Lossless w₁.fates := by rw [hdrop]; exact lossless_drop hl j
  rcases store_cases rfl hl₁ h with ⟨-, -, hwhy⟩ | ⟨-, hleft⟩
  · exfalso
    rw [hstate, hdrop] at hwhy
    rcases hwhy with hwhy | hwhy | hwhy | hwhy
    · rw [hnul] at hwhy
      simp at hwhy
    · rcases hf : w.fates.drop j with _ | ⟨f, fates⟩
      · rw [hf] at hwhy
        simp [Fate.stops] at hwhy
      · rw [hf, List.headD_cons] at hwhy
        have hmem : f ∈ w.fates.take (j + 1) := by
          rw [List.take_add, hf]
          simp
        rw [hgo f hmem] at hwhy
        simp at hwhy
    · exact hwhy hd
    · exact hfree hwhy
  · rw [hstate, hdrop] at hleft
    exact hleft

/-- **Every way `insert` can end.** -/
theorem insert_cases {batch : RecordBatch ρ} {setup : σ} (hr : r.Parsed) (hl : Lossless w.fates)
    (h : insert L db r batch setup w = (o, w')) :
    (w'.state = w.state ∧ o ≠ .ok ()) ∨
      ∃ n c, db.present w.state r = true ∧ Ready L w.state (db.tableDir r).loc batch.schema n c ∧
        (∀ f ∈ w.fates.take 4, f.stops = false) ∧
        StoreLeft L w.state (db.tableDir r).loc n batch (L.appendBatch c batch setup) (w.fates.drop 3)
          o w'.state := by
  rw [insert_eq] at h
  rcases checked_store_cases (reads_insertChecks L db r batch) (fun c => L.appendBatch c batch setup) hl h with
    hstop | ⟨n, c, heval, hgo, hleft⟩
  · exact Or.inl hstop
  · obtain ⟨hpres, hready⟩ := (eval_insertChecks_ok hr).mp heval
    exact Or.inr ⟨n, c, hpres, hready, hgo, hleft⟩

/-- **An insert whose checks pass, and whose batch file can be created, gets to its writes.** -/
theorem insert_left {batch : RecordBatch ρ} {setup : σ} (hr : r.Parsed) (hl : Lossless w.fates) {n : ℕ}
    {c : κ} (hpres : db.present w.state r = true)
    (hready : Ready L w.state (db.tableDir r).loc batch.schema n c)
    (hgo : ∀ f ∈ w.fates.take 4, f.stops = false)
    (hfree : w.state.lookup ((db.tableDir r).loc ++ [batchName n]) ≠ some .dir)
    (h : insert L db r batch setup w = (o, w')) :
    StoreLeft L w.state (db.tableDir r).loc n batch (L.appendBatch c batch setup) (w.fates.drop 3) o
      w'.state := by
  rw [insert_eq] at h
  exact checked_store_left (reads_insertChecks L db r batch) (fun c => L.appendBatch c batch setup) hl
    ((eval_insertChecks_ok hr).mpr ⟨hpres, hready⟩) hgo (noNul_of_present hpres) hready.isDir hfree h

/-- **When an insert panics**: its checks pass, its batch file is written, and the commitment library panics. -/
theorem insert_panic_iff {batch : RecordBatch ρ} {setup : σ} (hr : r.Parsed) (hl : Lossless w.fates) :
    (insert L db r batch setup w).1 = .panic ↔ ∃ n c bytes, db.present w.state r = true ∧
      Ready L w.state (db.tableDir r).loc batch.schema n c ∧ (∀ f ∈ w.fates.take 4, f.stops = false) ∧
      w.state.lookup ((db.tableDir r).loc ++ [batchName n]) ≠ some .dir ∧ L.writeParquet batch = some bytes ∧
      (∀ cut, ¬ Cuts (w.fates.drop 4) cut) ∧ L.appendBatch c batch setup = .error .panic := by
  have hchecks := reads_insertChecks L db r batch
  have hpass : ∀ n c, db.present w.state r = true → Ready L w.state (db.tableDir r).loc batch.schema n c →
      (∀ f ∈ w.fates.take 4, f.stops = false) → (insertChecks L db r batch w).1 = .ok (n, c) := fun n c hpres hready hgo =>
    (hchecks.steady w hl fun f hf => hgo f (List.take_subset_take_left w.fates (by decide) hf)).trans
      ((eval_insertChecks_ok hr).mpr ⟨hpres, hready⟩)
  rw [insert_eq, Prog.andThen_run]
  rcases hc : (insertChecks L db r batch w).1 with ⟨n, c⟩ | e | _ | _
  · have hrun : insertChecks L db r batch w = (.ok (n, c), (insertChecks L db r batch w).2) := Prod.ext hc rfl
    obtain ⟨hpres, hready⟩ := (eval_insertChecks_ok hr).mp (hchecks.reader.honest w _ hl hc)
    obtain ⟨hgo, hdrop⟩ := hchecks.calls w _ _ hl hrun
    have hloc : (batchPath (db.tableDir r) n).loc = (db.tableDir r).loc ++ [batchName n] := loc_batchPath _
    have hhead : ((w.fates.drop 3).headD .ok).stops = false ↔ ∀ f ∈ w.fates.take 4, f.stops = false := by
      rw [show w.fates.take 4 = w.fates.take 3 ++ w.fates[3]?.toList from List.take_add_one,
        List.headD_eq_head?_getD, List.head?_drop]
      rcases w.fates[3]? with _ | f
      · simpa [Fate.stops] using hgo
      · simpa [or_imp, forall_and] using fun _ => hgo
    have hrest : Lossless (insertChecks L db r batch w).2.fates := by
      rw [hdrop]
      exact lossless_drop hl 3
    have hwrite : (writeBatch L (batchPath (db.tableDir r) n) batch (insertChecks L db r batch w).2).1 = .ok () ↔ _ :=
      writeBatch_ok_iff hloc hrest
    rw [hasNul_batchPath, noNul_of_present hpres, hchecks.reader.state, hdrop, List.drop_drop, hhead] at hwrite
    simp only []
    rw [store_panic_iff, hwrite]
    constructor
    · rintro ⟨⟨-, hgo', -, hfree, ⟨bytes, hb⟩, hwhole⟩, hmade⟩
      exact ⟨n, c, bytes, hpres, hready, hgo', hfree, hb, hwhole, hmade⟩
    · rintro ⟨n', c', bytes, -, hready', hgo', hfree, hb, hwhole, hmade⟩
      obtain rfl : n' = n := hready'.count.trans hready.count.symm
      obtain rfl := hready'.commitment.unique hready.commitment
      exact ⟨⟨rfl, hgo', hready.isDir, hfree, ⟨bytes, hb⟩, hwhole⟩, hmade⟩
  · simp only [Prog.castStop, reduceCtorEq, false_iff]
    rintro ⟨n, c, bytes, hpres, hready, hgo, -⟩
    rw [hpass n c hpres hready hgo] at hc
    simp at hc
  · exact absurd hc (hchecks.noPanic w)
  · simp only [Prog.castStop, reduceCtorEq, false_iff]
    rintro ⟨n, c, bytes, hpres, hready, hgo, -⟩
    rw [hpass n c hpres hready hgo] at hc
    simp at hc

/-- The test every call starts with. -/
theorem pathExists_run (db : Db) (r : TableRef) (w : World Fs (Loc Name)) :
    ∃ w₁, (Disk.pathExists (db.tableDir r) : Io DbError Bool) w = (.ok (db.present w.state r), w₁) ∧
      w₁.state = w.state ∧ w₁.fates = w.fates := by
  rw [Disk.pathExists, present]
  split
  · rename_i hnul
    exact ⟨w, by rw [hnul]; rfl, rfl, rfl⟩
  · rename_i hnul
    rw [Bool.not_eq_true] at hnul
    refine ⟨{ w with log := (db.tableDir r).loc :: w.log }, ?_, rfl, rfl⟩
    rw [hnul]
    rfl

/-- **Every way `create_table` can end.** -/
theorem createTable_cases {schema : Schema} {setup : σ} (hl : Lossless w.fates)
    (h : createTable L db r schema setup w = (o, w')) :
    (db.present w.state r = true ∧ o = .err (.alreadyExists r) ∧ w'.state = w.state) ∨
    (db.present w.state r = false ∧
      ((o ≠ .ok () ∧ ∃ k, w'.state = w.state.mkdirs [] (db.tableDir r).loc k) ∨
      ∃ fs₁, fs₁ = w.state.mkdirs [] (db.tableDir r).loc (db.tableDir r).loc.length ∧
        w.state.blocked [] (db.tableDir r).loc = false ∧ (db.tableDir r).hasNul = false ∧
        StoreLeft L fs₁ (db.tableDir r).loc 0 (RecordBatch.newEmpty schema)
          (L.commitBatch (RecordBatch.newEmpty schema) 0 setup) (w.fates.drop 1) o w'.state)) := by
  obtain ⟨w₁, hw₁, hstate, hfates⟩ := pathExists_run db r w
  rw [createTable_eq, Prog.bind_run_ok hw₁] at h
  rcases hpres : db.present w.state r with _ | _
  · right
    refine ⟨rfl, ?_⟩
    rw [hpres] at h
    simp only [Bool.false_eq_true, if_false] at h
    rcases hd : (Disk.createDirAll (db.tableDir r) : Io DbError Unit) w₁ with ⟨o₂, w₂⟩
    have hl₁ : Lossless w₁.fates := by rw [hfates]; exact hl
    obtain ⟨k, hk, hok⟩ := Disk.createDirAll_cases hl₁ hd
    rw [hstate] at hk hok
    by_cases ho₂ : o₂ = .ok ()
    · subst ho₂
      obtain ⟨hnul, hb, -, rfl, hf⟩ := hok rfl
      rw [Prog.bind_run_ok hd] at h
      have hl₂ : Lossless w₂.fates := by rw [hf]; exact hl₁.tail
      rcases store_cases rfl hl₂ h with ⟨hsame, ho, -⟩ | ⟨-, hleft⟩
      · exact Or.inl ⟨ho, _, hsame.trans hk⟩
      · rw [hf, hfates, ← List.drop_one] at hleft
        exact Or.inr ⟨w₂.state, hk, hb, hnul, hleft⟩
    · left
      obtain ⟨h1, h2⟩ := Prog.bind_run_stop (m := Disk.createDirAll (db.tableDir r))
        (f := fun _ => store L (db.tableDir r) 0 (RecordBatch.newEmpty schema) .commit
          (L.commitBatch (RecordBatch.newEmpty schema) 0 setup)) (w := w₁) (by
            rw [hd]; rintro ⟨⟩; exact ho₂)
      rw [hd] at h1
      rw [h] at h1 h2
      exact ⟨h2 (), k, by rw [show w' = w₂ from h1, hk]⟩
  · left
    rw [hpres] at h
    change (Outcome.err (DbError.alreadyExists r), w₁) = (o, w') at h
    rw [Prod.mk.injEq] at h
    exact ⟨rfl, h.1.symm, by rw [← h.2, hstate]⟩

/-! ### Calls turned away -/

theorem raises_orPanic {e : DbError} (he : DbError.Internal e) {α : Type} (x : Except Failure α) :
    (orPanic e x : Io DbError α).Raises DbError.Internal := by
  rcases x with (_ | _) | a
  · exact Prog.Raises.fail he
  · exact Prog.Raises.panic
  · exact Prog.Raises.done a

theorem raises_store {dir : Path} {n : ℕ} {batch : RecordBatch ρ} {e : DbError}
    (he : DbError.Internal e) {made : Except Failure κ} :
    (store L dir n batch e made).Raises DbError.Internal := by
  have hwrite : (writeBatch L (batchPath dir n) batch).Raises DbError.Internal :=
    (Disk.raises_create trivial).bind fun _ => (Prog.Raises.ofOption trivial _).bind fun _ =>
      Disk.raises_writeAll trivial
  refine hwrite.bind fun _ => (raises_orPanic he made).bind fun c => ?_
  exact (Prog.Raises.ofOption trivial _).bind fun _ =>
    (Disk.raises_create trivial).bind fun _ => Disk.raises_writeAll trivial

/-- `create_table` answers `AlreadyExists` for directories that are there, and then changes nothing. -/
theorem createTable_alreadyExists {schema : Schema} {setup : σ} {r' : TableRef}
    (h : createTable L db r schema setup w = (.err (.alreadyExists r'), w')) :
    db.present w.state r = true ∧ w'.state = w.state := by
  have hrest : (do
      Disk.createDirAll (db.tableDir r)
      store L (db.tableDir r) 0 (RecordBatch.newEmpty schema) .commit
        (L.commitBatch (RecordBatch.newEmpty schema) 0 setup) : Io DbError Unit).Raises
        DbError.Internal := (Disk.raises_createDirAll trivial).bind fun _ =>
      raises_store (e := .commit) trivial
  obtain ⟨w₁, hw₁, hstate, -⟩ := pathExists_run db r w
  rw [createTable_eq, Prog.bind_run_ok hw₁] at h
  rcases hpres : db.present w.state r with _ | _
  · rw [hpres] at h
    simp only [Bool.false_eq_true, if_false] at h
    exact absurd (hrest w₁ _ (by rw [h])) (by simp [DbError.Internal])
  · rw [hpres] at h
    change (Outcome.err (DbError.alreadyExists r), w₁) = _ at h
    rw [Prod.mk.injEq] at h
    exact ⟨rfl, by rw [← h.2, hstate]⟩

/-- An insert turned away by its checks changes nothing. -/
theorem insert_turnedAway {batch : RecordBatch ρ} {setup : σ} {d : DbError}
    (hd : ¬ DbError.Internal d) (h : insert L db r batch setup w = (.err d, w')) :
    w'.state = w.state := by
  have hreader := (reads_insertChecks L db r batch).reader
  rw [insert_eq] at h
  rcases hc : insertChecks L db r batch w with ⟨o₁, w₁⟩
  have hstate : w₁.state = w.state := by
    have := hreader.state w
    rw [hc] at this
    exact this
  by_cases ho₁ : ∃ x, o₁ = .ok x
  · obtain ⟨x, rfl⟩ := ho₁
    rw [Prog.bind_run_ok hc] at h
    exact absurd (raises_store (L := L) (e := .append) trivial w₁ d (by rw [h])) hd
  · obtain ⟨h1, -⟩ := Prog.bind_run_stop (m := insertChecks L db r batch)
      (f := fun checked => store L (db.tableDir r) checked.1 batch .append
        (L.appendBatch checked.2 batch setup)) (w := w) (by
          rw [hc]
          exact fun a ha => ho₁ ⟨a, ha⟩)
    rw [hc, h] at h1
    rw [show w' = w₁ from h1, hstate]

/-! ### Calls that go well -/

/-- The libraries take the batch: it can be written, committed to and serialized. -/
def Accepts (L : Libs ρ κ σ) (batch : RecordBatch ρ) (made : Except Failure κ) : Prop :=
  ∃ bytes c bytes', L.writeParquet batch = some bytes ∧ made = .ok c ∧ L.serialize c = some bytes'

/-- The call that comes `j`th is one of the first `k`. -/
theorem stops_of_head_drop {fates : List Fate} {j k : ℕ} (hjk : j < k)
    (h : ((fates.drop j).headD .ok).stops = true) : ∃ f ∈ fates.take k, f.stops = true := by
  rw [List.headD_eq_head?_getD, List.head?_drop] at h
  rcases hf : fates[j]? with _ | f
  · rw [hf] at h
    simp [Fate.stops] at h
  · rw [hf, Option.getD_some] at h
    exact ⟨f, List.mem_of_getElem? (by rw [List.getElem?_take_of_lt hjk]; exact hf), h⟩

theorem Cuts.stops {fates : List Fate} {cut : ℕ} (h : Cuts fates cut) : (fates.headD .ok).stops = true := by
  rcases h with h | h <;> rw [h] <;> rfl

/-- **When a store goes through**: the libraries take the batch, and no call is stopped. -/
theorem store_ok_iff {dir : Path} {p : Loc Name} {n : ℕ} {batch : RecordBatch ρ} {e : DbError}
    {made : Except Failure κ} (hl : Lossless w.fates) (hp : dir.loc = p) (hnul : dir.hasNul = false)
    (hd : w.state.lookup p = some .dir) (hb : w.state.lookup (p ++ [batchName n]) ≠ some .dir)
    (hc : w.state.lookup (p ++ [commitName]) ≠ some .dir) : (store L dir n batch e made w).1 = .ok () ↔
      Accepts L batch made ∧ ∀ f ∈ w.fates.take 4, f.stops = false := by
  have hrun : store L dir n batch e made w
      = ((store L dir n batch e made w).1, (store L dir n batch e made w).2) := rfl
  constructor
  · intro ho
    rw [ho] at hrun
    obtain ⟨hgo, -⟩ := calls_store dir n batch e made w _ _ hl hrun
    rcases store_cases hp hl hrun with ⟨-, ho', -⟩ | ⟨-, hleft⟩
    · exact absurd rfl ho'
    · obtain ⟨bytes, fs₁, c, bytes', hbytes, -, hmade, hser, -⟩ := hleft.of_ok
      exact ⟨⟨bytes, c, bytes', hbytes, hmade, hser⟩, hgo⟩
  · rintro ⟨⟨bytes, c, bytes', hbytes, hmade, hser⟩, hgo⟩
    have hno : ∀ {j}, j < 4 → ((w.fates.drop j).headD .ok).stops ≠ true := by
      intro j hj hs
      obtain ⟨f, hf, hs⟩ := stops_of_head_drop hj hs
      rw [hgo f hf] at hs
      simp at hs
    rcases store_cases hp hl hrun with ⟨-, -, hwhy⟩ | ⟨-, hleft⟩
    · rcases hwhy with hwhy | hwhy | hwhy | hwhy
      · rw [hnul] at hwhy
        simp at hwhy
      · exact absurd hwhy (hno (j := 0) (by decide))
      · exact absurd hd hwhy
      · exact absurd hwhy hb
    · generalize (store L dir n batch e made w).1 = o at hleft
      cases hleft with
      | noParquet _ hnone _ =>
        rw [hbytes] at hnone
        simp at hnone
      | partBatch _ _ hcut _ => exact absurd hcut.stops (hno (by decide))
      | batchOnly _ _ _ _ hwhy => exact ((hwhy c bytes' hmade hser).elim (hno (by decide)) hc).elim
      | partCommit _ _ _ _ _ _ _ hcut _ => exact absurd hcut.stops (hno (by decide))
      | all _ _ _ _ _ => rfl

/-- **When an insert whose checks pass goes through**: the libraries take the batch, and no call is stopped. -/
theorem insert_ok_iff {batch : RecordBatch ρ} {setup : σ} (hr : r.Parsed) (hl : Lossless w.fates) {n : ℕ} {c : κ}
    (hpres : db.present w.state r = true) (hready : Ready L w.state (db.tableDir r).loc batch.schema n c)
    (hfree : w.state.lookup ((db.tableDir r).loc ++ [batchName n]) ≠ some .dir) :
    (insert L db r batch setup w).1 = .ok () ↔
      Accepts L batch (L.appendBatch c batch setup) ∧ ∀ f ∈ w.fates.take 7, f.stops = false := by
  have hchecks := reads_insertChecks L db r batch
  have heval := (eval_insertChecks_ok hr).mpr ⟨hpres, hready⟩
  have hcommit : w.state.lookup ((db.tableDir r).loc ++ [commitName]) ≠ some .dir := by
    obtain ⟨bytes, -, hb, -⟩ := hready.commitment
    rw [hb]
    simp
  have htake : w.fates.take 7 = w.fates.take 3 ++ (w.fates.drop 3).take 4 := List.take_add (i := 3) (j := 4)
  have hstore : ∀ w₁, insertChecks L db r batch w = (.ok (n, c), w₁) →
      ((insert L db r batch setup w).1 = .ok () ↔
        Accepts L batch (L.appendBatch c batch setup) ∧ ∀ f ∈ (w.fates.drop 3).take 4, f.stops = false) := by
    intro w₁ hrun
    have hstate : w₁.state = w.state := by
      have := hchecks.reader.state w
      rwa [hrun] at this
    obtain ⟨-, hdrop⟩ := hchecks.calls w _ _ hl hrun
    rw [insert_eq, Prog.bind_run_ok hrun, ← hdrop]
    rw [← hstate] at hready hfree hcommit
    exact store_ok_iff (by rw [hdrop]; exact lossless_drop hl 3) rfl (noNul_of_present hpres) hready.isDir hfree hcommit
  constructor
  · intro ho
    have hrun : insert L db r batch setup w = (.ok (), (insert L db r batch setup w).2) := Prod.ext ho rfl
    rw [insert_eq] at hrun
    obtain ⟨x, w₁, hrun₁, -⟩ := Prog.bind_eq_ok.mp hrun
    obtain rfl : (n, c) = x :=
      Outcome.ok.inj (heval.symm.trans (hchecks.reader.honest w x hl (by rw [hrun₁])))
    obtain ⟨hacc, hgo⟩ := (hstore w₁ hrun₁).mp ho
    refine ⟨hacc, fun f hf => ?_⟩
    rw [htake, List.mem_append] at hf
    exact hf.elim ((hchecks.calls w _ _ hl hrun₁).1 f) (hgo f)
  · rintro ⟨hacc, hgo⟩
    rw [htake] at hgo
    have hok := (hchecks.steady w hl fun f hf => hgo f (List.mem_append_left _ hf)).trans heval
    exact (hstore _ (Prod.ext hok rfl)).mpr ⟨hacc, fun f hf => hgo f (List.mem_append_right _ hf)⟩

/-- A batch of the table's schema that the libraries take is inserted. -/
theorem insert_run {batch : RecordBatch ρ} {setup : σ} {n : ℕ} {c : κ} (hr : r.Parsed)
    (hw : w.fates = []) (hpres : db.present w.state r = true)
    (hready : Ready L w.state (db.tableDir r).loc batch.schema n c)
    (hfree : w.state.lookup ((db.tableDir r).loc ++ [batchName n]) ≠ some .dir)
    (h : Accepts L batch (L.appendBatch c batch setup)) :
    (insert L db r batch setup w).1 = .ok () :=
  (insert_ok_iff hr (by rw [hw]; exact Lossless.nil) hpres hready hfree).mpr ⟨h, by simp [hw]⟩

/-- A table whose directory is missing, and can be made, is created. -/
theorem createTable_run {schema : Schema} {setup : σ} (hr : r.Parsed) (hw : w.fates = [])
    (hmiss : w.state.lookup (db.tableDir r).loc = none) (hnul : (db.tableDir r).hasNul = false)
    (hfree : w.state.blocked [] (db.tableDir r).loc = false) (hdot : (db.tableDir r).trail ≠ .dot)
    (h : Accepts L (RecordBatch.newEmpty schema) (L.commitBatch (RecordBatch.newEmpty schema) 0 setup)) :
    (createTable L db r schema setup w).1 = .ok () := by
  have hpres : db.present w.state r = false := by
    rw [Bool.eq_false_iff]
    exact fun hp => lookup_of_present hr hp hmiss
  obtain ⟨w₁, hw₁, hstate, hfates⟩ := pathExists_run db r w
  rw [hpres] at hw₁
  have hmake := (Disk.createDirAll_ok (ε := DbError) (p := db.tableDir r)
    (w := w₁) (by rw [hfates, hw]; exact Lossless.nil)).mpr
    ⟨hnul, by rw [hfates, hw]; rfl, hstate ▸ hfree, fun hd => hdot hd.1, rfl⟩
  rw [createTable_eq, Prog.bind_run_ok hw₁]
  simp only [Bool.false_eq_true, if_false]
  rw [Prog.bind_run_ok hmake]
  rw [hstate]
  have hnext : w₁.fates.tail = [] := by rw [hfates, hw]; rfl
  refine (store_ok_iff (by rw [hnext]; exact Lossless.nil) rfl hnul ?_ ?_ ?_).mpr ⟨h, by simp [hnext]⟩
  · have := FileTree.lookup_mkdirs_path w.state [] (db.tableDir r).loc (db.tableDir r).loc.length
      w.state.lookup_root hfree le_rfl (List.prefix_refl _)
    simpa using this
  · rw [w.state.lookup_below_mkdirs hmiss]; simp
  · rw [w.state.lookup_below_mkdirs hmiss]; simp

end Calls

end Db

end SxtEnterprise
