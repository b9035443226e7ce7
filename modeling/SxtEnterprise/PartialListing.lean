import SxtEnterprise.Locality
import SxtEnterprise.StoredData

/-!
# Listings that partly fail

A directory listing may come back with errors in place of some of its entries, and `parquetPaths` drops these.
What is left of the batch names (`survivors`) is then taken for all of them, twice: `tableData` reads only
these, and `insert` takes their number for that of the next batch.  So an insert overwrites a batch exactly when
some of the batch names are lost and some are not and nothing else stops it before it creates its file, and the
data is short exactly when a lost batch has rows while another batch is still there.
-/

namespace SxtEnterprise

open NumberedNames Paths FaultyRun

/-- What is left of a listing is in the order it was. -/
theorem Disk.losing_sublist (lost : List ℕ) (names : List Name) :
    ((Disk.losing lost names).filterMap id).Sublist names := by
  have hkeep : ∀ (f : ℕ → Name → Option Name), (∀ i c, f i c = none ∨ f i c = some c) →
      ((names.mapIdx f).filterMap id).Sublist names := by
    induction names with
    | nil => simp
    | cons c names ih =>
      intro f hf
      have hrest := ih (fun i => f (i + 1)) fun i => hf (i + 1)
      rw [List.mapIdx_cons]
      rcases hf 0 c with hc | hc
      · rw [hc, List.filterMap_cons_none (f := id) rfl]
        exact hrest.cons c
      · rw [hc, List.filterMap_cons_some (f := id) rfl]
        exact hrest.cons_cons c
  exact hkeep _ fun i c => by split <;> simp

namespace Db

/-- The batch names a listing that lost the entries at `lost` still has, in the order they are read. -/
def survivors (lost : List ℕ) (fs : Fs) (p : Loc Name) : List Name :=
  sorted (((Disk.losing lost (fs.children p)).filterMap id).filter isParquet)

theorem survivors_sublist (lost : List ℕ) (fs : Fs) (p : Loc Name) :
    ∀ c ∈ survivors lost fs p, c ∈ parquetNames fs p := by
  intro c hc
  rw [survivors, mem_sorted] at hc
  rw [parquetNames, mem_sorted]
  exact ((Disk.losing_sublist lost _).filter _).subset hc

theorem nodup_survivors (lost : List ℕ) (fs : Fs) (p : Loc Name) : (survivors lost fs p).Nodup :=
  nodup_sorted (((Disk.losing_sublist lost _).filter _).nodup ((FileTree.nodup_children fs p).filter _))

section Listing

variable {dir : Path} {fs : Fs} {lost : List ℕ} {fates : List Fate} {log : List (Loc Name)}

/-- **A listing that lost entries** is the listing of those that are left. -/
theorem parquetPaths_lossy (hdir : dir.Straight) (hnul : dir.hasNul = false) (hd : fs.lookup dir.loc = some .dir) :
    parquetPaths dir ⟨fs, .lossy lost :: fates, log⟩
      = (.ok ((survivors lost fs dir.loc).map (entryPath dir)), ⟨fs, fates, dir.loc :: log⟩) := by
  have hread : (Disk.readDir dir : Io DbError _) ⟨fs, .lossy lost :: fates, log⟩
      = (.ok (Disk.losing lost (fs.children dir.loc)), ⟨fs, fates, dir.loc :: log⟩) := by
    have hentries : Disk.entries dir lost fs = some (Disk.losing lost (fs.children dir.loc)) := by
      rw [Disk.entries, Disk.walk_of_lookup hdir hd]
      exact if_pos hd
    rw [Disk.readDir, Disk.readCall, Disk.guardNul, hnul, if_neg (by simp), Prog.sysCall]
    simp only [List.headD_cons, hentries]
    rfl
  rw [parquetPaths, Prog.bind_run_ok hread]
  rfl

variable {ρ κ σ : Type} {L : Libs ρ κ σ} {db : Db} {r : TableRef}

/-- What comes after the listing meets the rest of what befalls the call. -/
theorem ifPresent_lossy {α : Type} {m : List Path → Io DbError α} (hr : r.Parsed)
    (hnul : (db.tableDir r).hasNul = false) (hd : fs.lookup (db.tableDir r).loc = some .dir) :
    ∃ log', (do
      let present ← Disk.pathExists (db.tableDir r)
      if !present then Prog.fail (.notFound r) else do
        let paths ← parquetPaths (db.tableDir r)
        m paths : Io DbError α) ⟨fs, .lossy lost :: fates, log⟩
      = m ((survivors lost fs (db.tableDir r).loc).map (entryPath (db.tableDir r))) ⟨fs, fates, log'⟩ := by
  obtain ⟨⟨fs₁, fates₁, log₁⟩, hexists, hstate, hfates⟩ := pathExists_run db r ⟨fs, .lossy lost :: fates, log⟩
  change fs₁ = fs at hstate
  change fates₁ = _ at hfates
  subst hstate hfates
  refine ⟨(db.tableDir r).loc :: log₁, ?_⟩
  rw [Prog.bind_run_ok hexists, present_of_dir hr hnul hd]
  simp only [Bool.not_true, Bool.false_eq_true, if_false]
  rw [Prog.bind_run_ok (parquetPaths_lossy (tableDir_straight db hr) hnul hd)]

end Listing

/-! ### A directory that holds batches `0`, `1`, ... -/

section Holding

variable {ρ κ σ : Type} (L : Libs ρ κ σ) {db : Db} {r : TableRef} {fs : Fs} {dir : Path} {schema : Schema}
  {bs : List (RecordBatch ρ)} {lost : List ℕ}

/-- The batch files in `dir` are numbered from `0`, and hold `bs`. -/
structure Holding (fs : Fs) (dir : Path) (schema : Schema) (bs : List (RecordBatch ρ)) : Prop where
  noNul : dir.hasNul = false
  isDir : fs.lookup dir.loc = some .dir
  only : ∀ c ∈ parquetNames fs dir.loc, ∃ i < bs.length, c = batchName i
  file : ∀ i b, bs[i]? = some b → b.schema = schema ∧ ∃ bytes,
    fs.lookup (dir.loc ++ [batchName i]) = some (.file bytes) ∧ L.parquetSchema bytes = some schema ∧
      BatchOf L bytes b

variable {L}

theorem BatchOf.unique {bytes : Bytes} {b b' : RecordBatch ρ} (h : BatchOf L bytes b) (h' : BatchOf L bytes b') :
    b = b' := by
  obtain ⟨s, parts, hs, hp, hc⟩ := h
  obtain ⟨s', parts', hs', hp', hc'⟩ := h'
  rw [hs] at hs'
  obtain rfl := Option.some.inj hs'
  rw [hp] at hp'
  obtain rfl := Option.some.inj hp'
  rw [hc] at hc'
  exact Option.some.inj hc'

/-- A listing that lost some leaves the batches at the places `is`. -/
theorem Holding.survivors (h : Holding L fs dir schema bs) (lost : List ℕ) :
    ∃ is : List ℕ, Db.survivors lost fs dir.loc = is.map batchName ∧ is.Nodup ∧ ∀ i ∈ is, i < bs.length := by
  have hplaces : ∀ names : List Name, (∀ c ∈ names, ∃ i < bs.length, c = batchName i) →
      ∃ is : List ℕ, names = is.map batchName ∧ ∀ i ∈ is, i < bs.length := by
    intro names
    induction names with
    | nil => exact fun _ => ⟨[], rfl, by simp⟩
    | cons c names ih =>
      intro hn
      obtain ⟨i, hi, rfl⟩ := hn c (by simp)
      obtain ⟨is, rfl, his⟩ := ih fun d hd => hn d (by simp [hd])
      exact ⟨i :: is, rfl, by simpa [hi] using his⟩
  obtain ⟨is, heq, his⟩ := hplaces _ fun c hc => h.only c (survivors_sublist lost fs dir.loc c hc)
  refine ⟨is, heq, ?_, his⟩
  have hnd := nodup_survivors lost fs dir.loc
  rw [heq] at hnd
  exact hnd.of_map _

/-- Fewer places than batches, unless all of them are among the places. -/
theorem length_places_le {is : List ℕ} {n : ℕ} (hnd : is.Nodup) (his : ∀ i ∈ is, i < n) : is.length ≤ n := by
  have hsub := List.subperm_of_subset hnd fun i hi => List.mem_range.mpr (his i hi)
  simpa using hsub.length_le

theorem entries_batchNames (is : List ℕ) : Entries (is.map batchName) := by
  intro c hc
  obtain ⟨i, -, rfl⟩ := List.mem_map.mp hc
  exact (plain_batchName i).ne_dotdot

theorem Holding.schemaAt (h : Holding L fs dir schema bs) {i : ℕ} (hi : i < bs.length) {s : Schema} :
    SchemaAt L fs dir.loc (batchName i) s ↔ s = schema := by
  obtain ⟨-, bytes, hb, hs, -⟩ := h.file i bs[i] (List.getElem?_eq_getElem hi)
  constructor
  · rintro ⟨-, bytes', hb', hs'⟩
    rw [hb] at hb'
    obtain rfl : bytes = bytes' := by simpa using hb'
    rw [hs] at hs'
    exact (Option.some.inj hs').symm
  · rintro rfl
    exact ⟨noNul_batchName i, bytes, hb, hs⟩

/-- The batch at a place. -/
def batchAtPlace (schema : Schema) (bs : List (RecordBatch ρ)) (i : ℕ) : RecordBatch ρ :=
  bs.getD i (RecordBatch.newEmpty schema)

theorem Holding.batchAt (h : Holding L fs dir schema bs) {i : ℕ} (hi : i < bs.length) {b : RecordBatch ρ} :
    BatchAt L fs dir.loc (batchName i) b ↔ b = batchAtPlace schema bs i := by
  rw [batchAtPlace, List.getD_eq_getElem _ _ hi]
  obtain ⟨-, bytes, hb, -, hbatch⟩ := h.file i bs[i] (List.getElem?_eq_getElem hi)
  constructor
  · rintro ⟨-, bytes', hb', hbatch'⟩
    rw [hb] at hb'
    obtain rfl : bytes = bytes' := by simpa using hb'
    exact hbatch'.unique hbatch
  · rintro rfl
    exact ⟨noNul_batchName i, bytes, hb, hbatch⟩

/-- **What is read at some of the places**: the batches there, one after the other. -/
theorem Holding.eval_dataOf (hL : L.Lawful) (h : Holding L fs dir schema bs) (hdir : dir.Straight) {is : List ℕ}
    (his : ∀ i ∈ is, i < bs.length) {b : RecordBatch ρ} :
    (dataOf L ((is.map batchName).map (entryPath dir))).eval fs = .ok b ↔
      is ≠ [] ∧ b = RecordBatch.concat schema (is.map (batchAtPlace schema bs)) := by
  have hall : ∀ bs', List.Forall₂ (BatchAt L fs dir.loc) (is.map batchName) bs' ↔
      bs' = is.map (batchAtPlace schema bs) := by
    intro bs'
    induction is generalizing bs' with
    | nil => simp
    | cons i is ih =>
      rw [List.map_cons, List.forall₂_cons_left_iff, List.map_cons]
      constructor
      · rintro ⟨b, rest, hb, hrest, rfl⟩
        rw [(h.batchAt (his i (by simp))).mp hb, (ih (fun j hj => his j (by simp [hj])) rest).mp hrest]
      · rintro rfl
        exact ⟨_, _, (h.batchAt (his i (by simp))).mpr rfl, (ih (fun j hj => his j (by simp [hj])) _).mpr rfl, rfl⟩
  have hcat : L.concatBatches schema (is.map (batchAtPlace schema bs))
      = some (RecordBatch.concat schema (is.map (batchAtPlace schema bs))) := by
    refine hL.concatBatches_eq _ _ fun b hb => ?_
    obtain ⟨i, hi, rfl⟩ := List.mem_map.mp hb
    rw [batchAtPlace, List.getD_eq_getElem _ _ (his i hi)]
    exact (h.file i _ (List.getElem?_eq_getElem (his i hi))).1
  rw [eval_dataOf_ok hdir h.noNul (entries_batchNames is)]
  constructor
  · rintro ⟨c, s, bs', hc, hs, hbs, hb⟩
    rcases is with _ | ⟨i, is⟩
    · simp at hc
    · obtain rfl : batchName i = c := by simpa using hc
      obtain rfl := (h.schemaAt (his i (by simp))).mp hs
      rw [(hall bs').mp hbs, hcat] at hb
      exact ⟨by simp, (Option.some.inj hb).symm⟩
  · rintro ⟨hne, rfl⟩
    obtain ⟨i, rest, rfl⟩ := List.exists_cons_of_ne_nil hne
    exact ⟨batchName i, schema, _, rfl, (h.schemaAt (his i (by simp))).mpr rfl, (hall _).mpr rfl, hcat⟩

/-! ### The data that is left -/

/-- Every batch that is lost is empty, or else not all rows are read. -/
theorem kept_rows_perm_iff (schema : Schema) {is : List ℕ} (hnd : is.Nodup) (his : ∀ i ∈ is, i < bs.length) :
    (RecordBatch.concat schema (is.map (batchAtPlace schema bs))).rows.Perm (bs.flatMap RecordBatch.rows) ↔
      ∀ i b, bs[i]? = some b → i ∉ is → b.rows = [] := by
  have hall : bs.flatMap RecordBatch.rows
      = (List.range bs.length).flatMap fun i => (batchAtPlace schema bs i).rows := by
    have := TableLog.map_range_getD bs (RecordBatch.newEmpty schema)
    conv_lhs => rw [← this]
    rw [List.flatMap_map]
    rfl
  have hkept : (RecordBatch.concat schema (is.map (batchAtPlace schema bs))).rows
      = is.flatMap fun i => (batchAtPlace schema bs i).rows := by
    rw [RecordBatch.concat, List.flatMap_map]
  have hsplit : (is ++ (List.range bs.length).filter (· ∉ is)).Perm (List.range bs.length) := by
    refine (List.perm_ext_iff_of_nodup ?_ List.nodup_range).mpr fun i => ?_
    · refine hnd.append (List.nodup_range.filter _) fun i hi hi' => ?_
      simp [hi] at hi'
    · simp only [List.mem_append, List.mem_filter, List.mem_range, decide_eq_true_eq]
      constructor
      · rintro (hi | hi)
        · exact his i hi
        · exact hi.1
      · intro hi
        by_cases hmem : i ∈ is
        · exact Or.inl hmem
        · exact Or.inr ⟨hi, hmem⟩
  have hrows := hsplit.flatMap_right fun i => (batchAtPlace schema bs i).rows
  rw [List.flatMap_append] at hrows
  rw [hall, hkept]
  have hlost : (∀ i b, bs[i]? = some b → i ∉ is → b.rows = []) ↔
      ((List.range bs.length).filter (· ∉ is)).flatMap (fun i => (batchAtPlace schema bs i).rows) = [] := by
    simp only [List.flatMap_eq_nil_iff, List.mem_filter, List.mem_range, decide_eq_true_eq]
    constructor
    · rintro h i ⟨hi, hmem⟩
      rw [batchAtPlace, List.getD_eq_getElem _ _ hi]
      exact h i _ (List.getElem?_eq_getElem hi) hmem
    · intro h i b hb hmem
      obtain ⟨hi, rfl⟩ := List.getElem?_eq_some_iff.mp hb
      have := h i ⟨hi, hmem⟩
      rwa [batchAtPlace, List.getD_eq_getElem _ _ hi] at this
  rw [hlost]
  constructor
  · intro hperm
    have hlen := (hperm.trans hrows.symm).length_eq
    rw [List.length_append] at hlen
    exact List.eq_nil_of_length_eq_zero (by omega)
  · intro hnil
    rw [hnil, List.append_nil] at hrows
    exact hrows

end Holding

/-! ### Reading and inserting after a listing that lost entries -/

section Lossy

variable {ρ κ σ : Type} (L : Libs ρ κ σ) (db : Db) (r : TableRef) (fs : Fs) (lost : List ℕ)

/-- Whatever else befalls it, an insert after a listing that lost the entries at `lost` leaves every parquet file as
it was, and one that goes well has put its batch into a new one. -/
def InsertSafe (batch : RecordBatch ρ) (setup : σ) : Prop :=
  ∀ fates o w', Lossless fates → Db.insert L db r batch setup ⟨fs, .lossy lost :: fates, []⟩ = (o, w') →
    (∀ c ∈ parquetNames fs (db.tableDir r).loc,
      w'.state.lookup ((db.tableDir r).loc ++ [c]) = fs.lookup ((db.tableDir r).loc ++ [c])) ∧
    (o = .ok () → ∃ c, isParquet c = true ∧ fs.lookup ((db.tableDir r).loc ++ [c]) = none ∧
      BatchFile L w'.state (db.tableDir r).loc c batch)

/-- Whatever else befalls it, a read after such a listing that goes well has all the rows of `bs`. -/
def DataWhole (bs : List (RecordBatch ρ)) : Prop :=
  ∀ fates m w', Lossless fates → data L db [r] ⟨fs, .lossy lost :: fates, []⟩ = (.ok m, w') →
    ∃ b, m.lookup r = some b ∧ b.rows.Perm (bs.flatMap RecordBatch.rows)

variable {L db r fs lost} {fs' : Fs} {schema : Schema} {bs : List (RecordBatch ρ)} {batch : RecordBatch ρ} {setup : σ}
  {p : Loc Name} {n : ℕ} {made : Except Failure κ} {fates : List Fate} {o : Outcome DbError Unit}

/-- The insert, taken apart at its listing. -/
theorem insert_eq_checksOf : Db.insert L db r batch setup = (do
    let present ← Disk.pathExists (db.tableDir r)
    if !present then Prog.fail (.notFound r) else do
      let paths ← parquetPaths (db.tableDir r)
      let checked ← checksOf L (db.tableDir r) batch paths
      store L (db.tableDir r) checked.1 batch .append (L.appendBatch checked.2 batch setup)) := by
  rw [insert_eq, insertChecks_eq_checksOf, bind_assoc]
  refine congrArg (Disk.pathExists (db.tableDir r) >>= ·) (funext fun present => ?_)
  cases present with
  | false => rfl
  | true => simp only [Bool.not_true, Bool.false_eq_true, if_false, bind_assoc]

/-- The data of one table. -/
theorem data_one : data L db [r] = (fun b => IndexMap.collect [(r, b)]) <$> tableData L db r := by
  simp only [data, List.mapM_cons, List.mapM_nil, map_eq_pure_bind, bind_assoc, pure_bind]

/-- A store that went well has written its batch. -/
theorem StoreLeft.batchFile (h : StoreLeft L fs p n batch made fates (.ok ()) fs') :
    BatchFile L fs' p (batchName n) batch := by
  obtain ⟨bytes, fs₁, c, bytes', hbatch, hset, -, -, hset'⟩ := h.of_ok
  refine ⟨bytes, hbatch, ?_⟩
  rw [hset'.ne (by simpa using batchName_ne_commitName n), hset.self]

/-- A store killed right after its batch file was created has left it empty, unless it was not killed at all. -/
theorem StoreLeft.killed (h : StoreLeft L fs p n batch made [.ok, .kill 0] o fs') :
    o = .ok () ∨ fs'.lookup (p ++ [batchName n]) = some (.file []) := by
  have hwhole : ∃ cut, Cuts ([Fate.ok, .kill 0].drop 1) cut := ⟨0, Or.inr rfl⟩
  cases h with
  | noParquet _ _ hset => exact Or.inr hset.self
  | partBatch _ _ hcut hset =>
    rcases hcut with hcut | hcut
    · simp at hcut
    · obtain rfl : 0 = _ := by simpa using hcut
      exact Or.inr hset.self
  | batchOnly _ _ hno _ _ => exact absurd hwhole (by simpa using hno)
  | partCommit _ _ hno _ _ _ _ _ _ => exact absurd hwhole (by simpa using hno)
  | all => exact Or.inl rfl

/-- **When an insert after a partly failed listing is safe.** -/
theorem insertSafe_iff (hL : L.Lawful) (hr : r.Parsed) (h : Holding L fs (db.tableDir r) schema bs) :
    InsertSafe L db r fs lost batch setup ↔
      (survivors lost fs (db.tableDir r).loc).length = bs.length ∨ survivors lost fs (db.tableDir r).loc = [] ∨
        batch.schema ≠ schema ∨ ∀ k, ¬ CommitmentAt L fs (db.tableDir r).loc k := by
  have hdir := tableDir_straight db hr
  obtain ⟨is, hsurv, hnd, his⟩ := h.survivors lost
  have hle := length_places_le hnd his
  -- what the checks after the listing find
  have hchecks : ∀ {n k}, (checksOf L (db.tableDir r) batch ((is.map batchName).map (entryPath (db.tableDir r)))).eval
      fs = .ok (n, k) ↔ n = is.length ∧ is ≠ [] ∧ batch.schema = schema ∧ CommitmentAt L fs (db.tableDir r).loc k := by
    intro n k
    rw [eval_checksOf_ok hdir h.noNul (entries_batchNames is), List.length_map]
    refine and_congr_right fun _ => ?_
    rw [← and_assoc]
    refine and_congr_left fun _ => ?_
    rcases is with _ | ⟨i, is⟩
    · simp
    · simp only [List.map_cons, List.head?_cons, Option.some.injEq, exists_eq_left', ne_eq, reduceCtorEq,
        not_false_eq_true, true_and]
      exact h.schemaAt (his i (by simp))
  have hstart : ∀ fates, ∃ log', Db.insert L db r batch setup ⟨fs, .lossy lost :: fates, []⟩ = (do
      let checked ← checksOf L (db.tableDir r) batch ((is.map batchName).map (entryPath (db.tableDir r)))
      store L (db.tableDir r) checked.1 batch .append (L.appendBatch checked.2 batch setup)) ⟨fs, fates, log'⟩ := by
    intro fates
    rw [insert_eq_checksOf, ← hsurv]
    exact ifPresent_lossy hr h.noNul h.isDir
  have hreads := reads_checksOf L (db.tableDir r) batch ((is.map batchName).map (entryPath (db.tableDir r)))
  rw [hsurv, List.length_map, List.map_eq_nil_iff]
  constructor
  · intro hsafe
    by_contra hno
    simp only [not_or, not_forall, not_not] at hno
    obtain ⟨hshort, hne, hs, k, hk⟩ := hno
    have hlt : is.length < bs.length := lt_of_le_of_ne hle hshort
    obtain ⟨-, bytes, hold, hschema, -⟩ := h.file is.length _ (List.getElem?_eq_getElem hlt)
    have hname : batchName is.length ∈ parquetNames fs (db.tableDir r).loc :=
      mem_parquetNames.mpr ⟨isParquet_batchName _, by rw [hold]; simp⟩
    -- the process is killed right after the file is created
    have hl : Lossless [Fate.ok, .ok, .ok, .kill 0] := by intro l; simp
    obtain ⟨log', hrun⟩ := hstart [.ok, .ok, .ok, .kill 0]
    rcases hw : Db.insert L db r batch setup ⟨fs, .lossy lost :: [.ok, .ok, .ok, .kill 0], []⟩ with ⟨o, w'⟩
    obtain ⟨hkeeps, hnew⟩ := hsafe _ o w' hl hw
    rw [hw] at hrun
    have hleft := checked_store_left hreads (fun c => L.appendBatch c batch setup) hl (hchecks.mpr ⟨rfl, hne, hs, hk⟩)
      (by simp [Fate.stops]) h.noNul h.isDir (by rw [hold]; simp) hrun.symm
    have hkept := hkeeps _ hname
    rw [hold] at hkept
    rcases hleft.killed with rfl | hempty
    · obtain ⟨c, hc, hnone, bytes', -, hthere⟩ := hnew rfl
      have hcn : c ≠ batchName is.length := by
        rintro rfl
        rw [hold] at hnone
        simp at hnone
      rw [hleft.parquet_ne hc hcn, hnone] at hthere
      simp at hthere
    · rw [hkept] at hempty
      obtain rfl : bytes = [] := by simpa using hempty
      rw [hL.parquetSchema_nil] at hschema
      simp at hschema
  · intro hcond fates o w' hl hrun
    obtain ⟨log', heq⟩ := hstart fates
    rw [heq] at hrun
    rcases checked_store_cases hreads (fun c => L.appendBatch c batch setup) hl hrun with ⟨hsame, ho⟩ |
      ⟨n, k, heval, -, hleft⟩
    · exact ⟨fun c _ => by rw [hsame], fun h => absurd h ho⟩
    obtain ⟨rfl, hne, hs, hk⟩ := hchecks.mp heval
    have hfull : is.length = bs.length := by
      rcases hcond with hc | hc | hc | hc
      · exact hc
      · exact absurd hc hne
      · exact absurd hs hc
      · exact absurd hk (hc k)
    have hnone : fs.lookup ((db.tableDir r).loc ++ [batchName is.length]) = none := by
      by_contra hsome
      obtain ⟨i, hi, heq⟩ := h.only _ (mem_parquetNames.mpr ⟨isParquet_batchName _, hsome⟩)
      rw [batchName_injective heq] at hfull
      omega
    refine ⟨fun c hc => ?_, ?_⟩
    · obtain ⟨hparquet, hsome⟩ := mem_parquetNames.mp hc
      exact hleft.parquet_ne hparquet fun heq => hsome (heq ▸ hnone)
    · rintro rfl
      exact ⟨_, isParquet_batchName _, hnone, hleft.batchFile⟩

/-- **When a read after a partly failed listing is whole.** -/
theorem dataWhole_iff (hL : L.Lawful) (hr : r.Parsed) (h : Holding L fs (db.tableDir r) schema bs) :
    DataWhole L db r fs lost bs ↔ survivors lost fs (db.tableDir r).loc = [] ∨
      ∀ i b, bs[i]? = some b → batchName i ∉ survivors lost fs (db.tableDir r).loc → b.rows = [] := by
  have hdir := tableDir_straight db hr
  obtain ⟨is, hsurv, hnd, his⟩ := h.survivors lost
  have hmem : ∀ i, batchName i ∉ is.map batchName ↔ i ∉ is := fun i => by
    rw [List.mem_map_of_injective batchName_injective]
  have hstart : ∀ fates, ∃ log', tableData L db r ⟨fs, .lossy lost :: fates, []⟩
      = dataOf L ((is.map batchName).map (entryPath (db.tableDir r))) ⟨fs, fates, log'⟩ := by
    intro fates
    rw [tableData_eq_dataOf, ← hsurv]
    exact ifPresent_lossy hr h.noNul h.isDir
  have hreader := reader_dataOf L ((is.map batchName).map (entryPath (db.tableDir r)))
  simp only [hsurv, List.map_eq_nil_iff, hmem]
  constructor
  · intro hwhole
    by_cases hne : is = []
    · exact Or.inl hne
    refine Or.inr ((kept_rows_perm_iff schema hnd his).mp ?_)
    obtain ⟨log', heq⟩ := hstart []
    have heval := (h.eval_dataOf hL hdir his).mpr ⟨hne, rfl⟩
    obtain ⟨w', hrun, -, -⟩ := hreader.run_calm (w := ⟨fs, [], log'⟩) rfl heval
    have hdata : data L db [r] ⟨fs, [.lossy lost], []⟩
        = (.ok (IndexMap.collect [(r, RecordBatch.concat schema (is.map (batchAtPlace schema bs)))]), w') := by
      rw [data_one, map_eq_pure_bind, Prog.bind_run_ok (heq.trans hrun)]
      rfl
    obtain ⟨b, hb, hperm⟩ := hwhole [] _ w' Lossless.nil hdata
    rw [IndexMap.lookup_collect_one] at hb
    rwa [← Option.some.inj hb] at hperm
  · intro hcond fates m w' hl hrun
    rw [data_one, map_eq_pure_bind] at hrun
    obtain ⟨b, w₁, hb, hm⟩ := Prog.bind_eq_ok.mp hrun
    obtain rfl : IndexMap.collect [(r, b)] = m := by
      rw [Prog.pure_run, Prod.mk.injEq] at hm
      exact Outcome.ok.inj hm.1
    refine ⟨b, IndexMap.lookup_collect_one r b, ?_⟩
    obtain ⟨log', heq⟩ := hstart fates
    rw [heq] at hb
    obtain ⟨hne, rfl⟩ := (h.eval_dataOf hL hdir his).mp (hreader.honest _ b hl (by rw [hb]))
    rcases hcond with hnil | hlost
    · exact absurd hnil hne
    · exact (kept_rows_perm_iff schema hnd his).mpr hlost

/-- **A partly failed listing loses nothing and hides nothing exactly if** it still has all batch names or none, or
the checks after it turn the batch away; and it has none, or what it has lost holds no rows. -/
theorem lossy_listing_safe_iff (hL : L.Lawful) (hr : r.Parsed) (h : Holding L fs (db.tableDir r) schema bs) :
    (InsertSafe L db r fs lost batch setup ↔
      (survivors lost fs (db.tableDir r).loc).length = bs.length ∨ survivors lost fs (db.tableDir r).loc = [] ∨
        batch.schema ≠ schema ∨ ∀ k, ¬ CommitmentAt L fs (db.tableDir r).loc k) ∧
    (DataWhole L db r fs lost bs ↔ survivors lost fs (db.tableDir r).loc = [] ∨
      ∀ i b, bs[i]? = some b → batchName i ∉ survivors lost fs (db.tableDir r).loc → b.rows = []) :=
  ⟨insertSafe_iff hL hr h, dataWhole_iff hL hr h⟩

end Lossy

section Sample

open SampleLibs

/-- Two rows, inserted one after the other. -/
def twoRows : Fs := (play libs ⟨home⟩ sampleStart
  [(.createTable people ids 9, []), (.insert people ⟨ids, [1]⟩ 9, []), (.insert people ⟨ids, [2]⟩ 9, [])]).2

theorem holding_twoRows :
    Holding libs twoRows ((⟨home⟩ : Db).tableDir people) ids [⟨ids, []⟩, ⟨ids, [1]⟩, ⟨ids, [2]⟩] where
  noNul := rfl
  isDir := by decide +kernel
  only := by decide +kernel
  file := by
    rintro (_ | _ | _ | i) b hb
    · obtain rfl : ⟨ids, []⟩ = b := by simpa using hb
      exact ⟨rfl, [0, 0], by decide +kernel, rfl, ids, [], rfl, rfl, rfl⟩
    · obtain rfl : ⟨ids, [1]⟩ = b := by simpa using hb
      exact ⟨rfl, [0, 1, 1, 0], by decide +kernel, rfl, ids, [⟨ids, [1]⟩], rfl, rfl, rfl⟩
    · obtain rfl : ⟨ids, [2]⟩ = b := by simpa using hb
      exact ⟨rfl, [0, 1, 2, 0], by decide +kernel, rfl, ids, [⟨ids, [2]⟩], rfl, rfl, rfl⟩
    · simp at hb

/-- The entry that comes back as an error is not a batch's. -/
theorem lossy_listing_safe_iff_sample :
    InsertSafe libs ⟨home⟩ people twoRows [0] ⟨ids, [3]⟩ 9 ∧
      DataWhole libs ⟨home⟩ people twoRows [0] [⟨ids, []⟩, ⟨ids, [1]⟩, ⟨ids, [2]⟩] := by
  have h : (InsertSafe libs ⟨home⟩ people twoRows [0] ⟨ids, [3]⟩ 9 ↔ _) ∧
      (DataWhole libs ⟨home⟩ people twoRows [0] _ ↔ _) :=
    lossy_listing_safe_iff libs_lawful (by decide) holding_twoRows
  have hnames : survivors [0] twoRows ((⟨home⟩ : Db).tableDir people).loc
      = [batchName 0, batchName 1, batchName 2] := by decide +kernel
  rw [hnames] at h
  refine ⟨h.1.mpr (Or.inl rfl), h.2.mpr (Or.inr ?_)⟩
  rintro (_ | _ | _ | i) b hb hlost
  · simp at hlost
  · simp at hlost
  · simp at hlost
  · simp at hb

/-- An insert that was not told of file `2`. -/
def overwrites : Outcome DbError Unit × World Fs (Loc Name) :=
  Db.insert libs ⟨home⟩ people ⟨ids, [3]⟩ 9 ⟨twoRows, [.lossy [1]], []⟩

/-- **A listing that lost the last batch file**: the insert that goes by it writes over that file, and the data read
by it is short of its rows. -/
theorem lossy_listing_overwrites :
    overwrites.1 = .ok () ∧ ¬ InsertSafe libs ⟨home⟩ people twoRows [1] ⟨ids, [3]⟩ 9 ∧
      ¬ DataWhole libs ⟨home⟩ people twoRows [1] [⟨ids, []⟩, ⟨ids, [1]⟩, ⟨ids, [2]⟩] := by
  have hrun : Db.insert libs ⟨home⟩ people ⟨ids, [3]⟩ 9 ⟨twoRows, [.lossy [1]], []⟩
      = (overwrites.1, overwrites.2) := by rw [Prod.mk.eta, overwrites]
  have hnames : survivors [1] twoRows ((⟨home⟩ : Db).tableDir people).loc = [batchName 0, batchName 1] := by
    decide +kernel
  refine ⟨by decide +kernel, fun hsafe => ?_, fun hwhole => ?_⟩
  · have hkept := (hsafe [] _ _ Lossless.nil hrun).1 (batchName 2) (by decide +kernel)
    have hwritten : overwrites.2.state.lookup (((⟨home⟩ : Db).tableDir people).loc ++ [batchName 2])
        ≠ twoRows.lookup (((⟨home⟩ : Db).tableDir people).loc ++ [batchName 2]) := by decide +kernel
    exact hwritten hkept
  · rw [dataWhole_iff libs_lawful (by decide) holding_twoRows, hnames] at hwhole
    rcases hwhole with hwhole | hwhole
    · simp at hwhole
    · have := hwhole 2 ⟨ids, [2]⟩ rfl (by decide)
      simp at this

end Sample

end Db

end SxtEnterprise
