import SxtEnterprise.DbRuns
import SxtEnterprise.SampleLibs

/-!
# Stored data never drifts from what was inserted

In a run over references without slashes in which every call goes through or is turned away by its own
checks, every table created with at least one column holds exactly its batches, numbered without a gap, and
the commitment of all of them (`Holds`).  This is the layout invariant along the run, with the history of the
run as its account of what each log must be (`Accounts`).

A table without columns is created all the same, but its file cannot be read, so it never answers a call
(`bare_table_cannot_be_read`).
-/

namespace SxtEnterprise

open NumberedNames Paths FaultyRun

namespace Db

variable {ρ κ σ : Type} (L : Libs ρ κ σ) (db : Db)

/-! ### Histories -/

/-- The schema `r` was created with, if this event created it. -/
def Event.created (r : TableRef) (e : Event ρ σ) : Option Schema :=
  match e.call, e.outcome with
  | .createTable r' s _, .ok () => if r' = r then some s else none
  | _, _ => none

theorem Event.created_eq_some {r : TableRef} {e : Event ρ σ} {s : Schema} :
    e.created r = some s ↔ ∃ setup, e.call = .createTable r s setup ∧ e.outcome = .ok () := by
  obtain ⟨call, fates, o⟩ := e
  rcases call with _ | ⟨r', s', setup⟩ | _ | _ | _ | _ | _ <;> rcases o with u | _ | _ | _ <;>
    simp [Event.created]

/-- The batch inserted into `r`, if this event inserted one. -/
def Event.inserted (r : TableRef) (e : Event ρ σ) : Option (RecordBatch ρ) :=
  match e.call, e.outcome with
  | .insert r' b _, .ok () => if r' = r then some b else none
  | _, _ => none

/-- The batches successfully inserted into `r`, in order. -/
def insertedInto (hist : List (Event ρ σ)) (r : TableRef) : List (RecordBatch ρ) :=
  hist.filterMap (Event.inserted r)

/-- `create_table` and `insert` went through or were turned away by their own checks. -/
def Event.Settled (e : Event ρ σ) : Prop :=
  match e.call with
  | .createTable r _ _ => e.outcome = .ok () ∨ e.outcome = .err (.alreadyExists r)
  | .insert r _ _ =>
    e.outcome = .ok () ∨ e.outcome = .err (.notFound r) ∨ e.outcome = .err .schemaMismatch
  | _ => True

instance : (e : Event ρ σ) → Decidable e.Settled
  | ⟨.createTable _ _ _, _, _⟩ => inferInstanceAs (Decidable (_ ∨ _))
  | ⟨.insert _ _ _, _, _⟩ => inferInstanceAs (Decidable (_ ∨ _ ∨ _))
  | ⟨.openAt, _, _⟩ | ⟨.data _, _, _⟩ | ⟨.schema _, _, _⟩ | ⟨.commitments _, _, _⟩ | ⟨.tables, _, _⟩ =>
    isTrue trivial

/-- The table `r` is, as the database's own reads see it, the log `e`. -/
structure Holds (fs : Fs) (r : TableRef) (e : TableLog ρ) : Prop where
  /-- The parquet files are those of the numbers `0` to `n`, and no others. -/
  files : ∀ c, isParquet c = true →
    (fs.lookup ((db.tableDir r).loc ++ [c]) ≠ none ↔ ∃ i < e.files.length, c = batchName i)
  /-- File `0` holds the empty batch of the schema, file `i` the `i`-th batch inserted. -/
  batches : ∀ i b, e.files[i]? = some b →
    (readBatch L (batchPath (db.tableDir r) i)).eval fs = .ok b
  /-- The first path in sort order is file `0`, and its schema is the table's. -/
  first : ∃ ps, (parquetPaths (db.tableDir r)).eval fs = .ok ps ∧ ps.length = e.files.length ∧
    ps.head? = some (batchPath (db.tableDir r) 0) ∧
    (readSchema L (batchPath (db.tableDir r) 0)).eval fs = .ok e.schema
  /-- The commitment is that of all rows in the order they were inserted. -/
  commitment : ∃ k, (readCommitment L (commitPath (db.tableDir r))).eval fs = .ok k ∧
    L.Commits k e.content

section Holds

variable {L db} {fs : Fs} {r : TableRef} {e : TableLog ρ} {idx : List ℕ}

theorem eval_readBatch_path (hr : r.Parsed) (hnul : (db.tableDir r).hasNul = false) {i : ℕ}
    {b : RecordBatch ρ} : (readBatch L (batchPath (db.tableDir r) i)).eval fs = .ok b ↔
      BatchAt L fs (db.tableDir r).loc (batchName i) b := by
  rw [← entryPath_batchName]
  exact eval_readBatch_entry L (tableDir_straight db hr) hnul (ne_dotdot_of_isParquet (isParquet_batchName i))

theorem head_readOrder {n : ℕ} (hn : 0 < n) : (TableLog.readOrder n).head? = some 0 := by
  rcases ho : TableLog.readOrder n with _ | ⟨i, is⟩
  · have := TableLog.mem_readOrder.mpr hn
    rw [ho] at this
    simp at this
  · have hhead : (sorted ((List.range n).map batchName)).head? = some (batchName 0) :=
      sorted_head (List.mem_map.mpr ⟨0, List.mem_range.mpr hn, rfl⟩) fun x hx => by
        obtain ⟨j, -, rfl⟩ := List.mem_map.mp hx
        exact numbered_zero_le _ (by decide) j
    rw [show sorted ((List.range n).map batchName) = (TableLog.readOrder n).map batchName from
      sorted_numbered _ _ _, ho] at hhead
    have hi : batchName i = batchName 0 := by simpa using hhead
    rw [List.head?_cons, batchName_injective hi]

/-- In a tidy table the rows of the batch files are the data. -/
theorem Batches.eval_tableData (h : Batches L fs (db.tableDir r).loc e idx) (hL : L.Lawful) (hr : r.Parsed)
    (hnul : (db.tableDir r).hasNul = false) (hcol : e.schema ≠ []) (ht : Tidy fs (db.tableDir r).loc) :
    (tableData L db r).eval fs = .ok e.readBack := by
  rw [eval_tableData_ok hr]
  obtain ⟨bs, hbs, hc⟩ := h.reads hL hcol ht
  exact ⟨present_of_dir hr hnul h.isDir, h.isDir, _, bs, h.firstSchema_tidy hL hcol ht, hbs, hc⟩

/-- A table that is its log to every read has a column: the file it takes its schema from was read. -/
theorem Batches.columns_of_holds (h : Batches L fs (db.tableDir r).loc e idx) (hL : L.Lawful) (hr : r.Parsed)
    (hholds : Holds L db fs r e) : e.schema ≠ [] := by
  obtain ⟨ps, hps, -, -, hschema⟩ := hholds.first
  obtain ⟨hnul, -, -⟩ := (eval_parquetPaths_ok (tableDir_straight db hr)).mp hps
  rw [← entryPath_batchName, eval_readSchema_entry L (tableDir_straight db hr) hnul
    (ne_dotdot_of_isParquet (isParquet_batchName 0))] at hschema
  obtain ⟨-, bytes, hb, hs⟩ := hschema
  obtain ⟨bytes', hw, hb'⟩ := h.file_zero
  obtain rfl : bytes = bytes' := by simpa [hb] using hb'
  exact ((hL.schema_of_write hw).mp hs).1

/-- A tidy table that stores a log is that log to every read, if it has a column. -/
theorem Stored.holds (h : Stored L fs (db.tableDir r).loc e idx) (hL : L.Lawful) (hr : r.Parsed)
    (hnul : (db.tableDir r).hasNul = false) (hcol : e.schema ≠ []) (ht : Tidy fs (db.tableDir r).loc) :
    Holds L db fs r e where
  files c hc := by
    have hmem := h.mem_names_iff ht (c := c)
    rw [mem_parquetNames, h.numbers_eq_range ht, List.mem_map] at hmem
    constructor
    · intro hl
      obtain ⟨i, hi, rfl⟩ := hmem.mp ⟨hc, hl⟩
      exact ⟨i, List.mem_range.mp hi, rfl⟩
    · rintro ⟨i, hi, rfl⟩
      exact (hmem.mpr ⟨i, List.mem_range.mpr hi, rfl⟩).2
  batches i b hb := by
    obtain ⟨hi, rfl⟩ := List.getElem?_eq_some_iff.mp hb
    exact (eval_readBatch_path hr hnul).mpr
      ((h.file ht hi).at hL (by rw [h.schema_of_mem (List.getElem_mem hi)]; exact hcol))
  first := by
    refine ⟨_, (eval_parquetPaths_ok (tableDir_straight db hr)).mpr ⟨hnul, h.isDir, rfl⟩, ?_, ?_, ?_⟩
    · rw [List.length_map, h.names_eq ht, List.length_map, TableLog.readOrder,
        (nameOrder_perm _ _ _).length_eq, List.length_range]
    · rw [h.names_eq ht, List.head?_map, List.head?_map,
        head_readOrder (by simp [TableLog.files]), Option.map_some, Option.map_some, entryPath_batchName]
    · obtain ⟨bytes, hw, hb⟩ := h.file_zero
      rw [← entryPath_batchName]
      exact (eval_readSchema_entry L (tableDir_straight db hr) hnul
        (ne_dotdot_of_isParquet (isParquet_batchName 0))).mpr
          ⟨noNul_batchName 0, bytes, hb, (hL.schema_of_write hw).mpr ⟨hcol, rfl⟩⟩
  commitment := by
    obtain ⟨k, hk, hc⟩ := h.commitment
    exact ⟨k, (eval_readCommitment_dir L (tableDir_straight db hr) hnul).mpr (hk.at hL), hc⟩

end Holds

/-! ### What a history says about a table -/

/-- The log of `r` is what the history says: nothing if `r` was never created, and otherwise the
schema it was created with and the batches inserted since. -/
def Accounts (hist : List (Event ρ σ)) (r : TableRef) : Option (TableLog ρ) → Prop
  | none => (∀ e ∈ hist, e.created r = none) ∧ insertedInto hist r = []
  | some e => e.batches = insertedInto hist r ∧ ∀ ev ∈ hist, ∀ s, ev.created r = some s → s = e.schema

section Accounts

variable {hist : List (Event ρ σ)} {r : TableRef} {log : Option (TableLog ρ)} {e : Event ρ σ}

theorem insertedInto_concat (hist : List (Event ρ σ)) (e : Event ρ σ) (r : TableRef) :
    insertedInto (hist ++ [e]) r = insertedInto hist r ++ (e.inserted r).toList := by
  rw [insertedInto, List.filterMap_append]
  rcases h : e.inserted r with _ | b <;> simp [insertedInto, h]

/-- An event that neither creates the table nor inserts into it changes no account. -/
theorem Accounts.skip (h : Accounts hist r log) (hc : e.created r = none) (hi : e.inserted r = none) :
    Accounts (hist ++ [e]) r log := by
  cases log with
  | none =>
    refine ⟨fun ev hev => ?_, by rw [insertedInto_concat, hi, h.2]; rfl⟩
    rcases List.mem_append.mp hev with hev | hev
    · exact h.1 ev hev
    · rw [List.mem_singleton.mp hev, hc]
  | some l =>
    refine ⟨by rw [insertedInto_concat, hi, h.1]; simp, fun ev hev s hs => ?_⟩
    rcases List.mem_append.mp hev with hev | hev
    · exact h.2 ev hev s hs
    · rw [List.mem_singleton.mp hev, hc] at hs
      simp at hs

/-- Creating a table that was not there starts its account. -/
theorem Accounts.create (h : Accounts hist r none) {s : Schema} (hc : e.created r = some s)
    (hi : e.inserted r = none) : Accounts (hist ++ [e]) r (some (TableLog.new s)) := by
  refine ⟨by rw [insertedInto_concat, hi, h.2]; rfl, fun ev hev s' hs' => ?_⟩
  rcases List.mem_append.mp hev with hev | hev
  · rw [h.1 ev hev] at hs'
    simp at hs'
  · rw [List.mem_singleton.mp hev, hc] at hs'
    exact (Option.some.inj hs').symm

/-- Inserting into a table continues its account. -/
theorem Accounts.insert {l : TableLog ρ} (h : Accounts hist r (some l)) {b : RecordBatch ρ}
    (hc : e.created r = none) (hi : e.inserted r = some b) :
    Accounts (hist ++ [e]) r (some (l.push b)) := by
  refine ⟨by rw [insertedInto_concat, hi, TableLog.push_batches, h.1]; rfl, fun ev hev s hs => ?_⟩
  rcases List.mem_append.mp hev with hev | hev
  · exact h.2 ev hev s hs
  · rw [List.mem_singleton.mp hev, hc] at hs
    simp at hs

end Accounts

/-- The layout of the tree, with the logs that the history accounts for. -/
def Accounted (hist : List (Event ρ σ)) (fs : Fs) : Prop :=
  ∃ cat, Layout L db fs cat ∧ ∀ r, r.Flat → Accounts hist r (cat (db.tableDir r).loc)

section Runs

variable {L db} {hist : List (Event ρ σ)} {fs fs' : Fs} {e : Event ρ σ}

/-- Different flat references lead to different directories, unless they name none. -/
theorem tableDir_loc_injective {r r' : TableRef} (hr : r.Flat) (hr' : r'.Flat) (hp : Plain r.toString)
    (h : (db.tableDir r').loc = (db.tableDir r).loc) : r' = r := by
  rw [tableDir_loc_plain db hp] at h
  rcases tableDir_loc_flat db hr' with h' | ⟨-, h'⟩
  · rw [h'] at h
    simpa using h.symm
  · rw [h'] at h
    exact TableRef.toString_injective hr'.1 hr.1 (by simpa using h)

/-- **One step keeps the account.** -/
theorem Accounted.step (hL : L.Lawful) (h : Accounted L db hist fs) (hflat : ∀ r ∈ e.call.refs, r.Flat)
    (hsettled : e.Settled) (hstep : Step L db fs e fs') : Accounted L db (hist ++ [e]) fs' := by
  obtain ⟨cat, hlay, hacc⟩ := h
  have hread : (∀ r s setup, e.call ≠ .createTable r s setup) →
      (∀ r b setup, e.call ≠ .insert r b setup) → Accounted L db (hist ++ [e]) fs' := by
    intro h1 h2
    rw [hstep.same_of_read hlay.lookup_ne_none ⟨h1, h2⟩]
    refine ⟨cat, hlay, fun r hr => (hacc r hr).skip ?_ ?_⟩ <;>
    · rcases e with ⟨_ | _ | _ | _ | _ | _ | _, _, _⟩
      all_goals first | rfl | exact absurd rfl (h1 _ _ _) | exact absurd rfl (h2 _ _ _)
  have hsame : fs' = fs → (∀ r, e.created r = none) → (∀ r, e.inserted r = none) →
      Accounted L db (hist ++ [e]) fs' := by
    rintro rfl hc hi
    exact ⟨cat, hlay, fun r hr => (hacc r hr).skip (hc r) (hi r)⟩
  obtain ⟨call, fates, outcome⟩ := e
  cases call with
  | createTable r s setup =>
    have hr : r.Flat := hflat r (by simp [Call.refs])
    obtain ⟨hl, w', hrun, rfl⟩ := hstep
    rcases hsettled with rfl | rfl
    · rcases hlay.createTable (w := ⟨fs, fates, []⟩) hL hr hl hrun with ⟨ho, -⟩ | ⟨hnone, hp, hlay'⟩
      · exact absurd rfl ho
      · refine ⟨_, hlay', fun r' hr' => ?_⟩
        by_cases hrr : r' = r
        · subst hrr
          rw [Function.update_self]
          have hacc' := hacc r' hr'
          rw [hnone] at hacc'
          exact hacc'.create (by simp [Event.created]) rfl
        · rw [Function.update_of_ne fun heq => hrr (tableDir_loc_injective hr hr' hp heq)]
          exact (hacc r' hr').skip (by simp [Event.created, Ne.symm hrr]) rfl
    · obtain ⟨-, hs⟩ := createTable_alreadyExists hrun
      exact hsame hs (fun _ => rfl) fun _ => rfl
  | insert r b setup =>
    have hr : r.Flat := hflat r (by simp [Call.refs])
    obtain ⟨hl, w', hrun, rfl⟩ := hstep
    rcases hsettled with rfl | rfl | rfl
    · obtain ⟨l, hc, -, hlay'⟩ := hlay.insert (w := ⟨fs, fates, []⟩) hL hr hl hrun
      have hp : Plain r.toString := hlay.plain_of_logged hr hc
      refine ⟨_, hlay', fun r' hr' => ?_⟩
      by_cases hrr : r' = r
      · subst hrr
        rw [Function.update_self]
        have hacc' := hacc r' hr'
        rw [hc] at hacc'
        exact hacc'.insert rfl (by simp [Event.inserted])
      · rw [Function.update_of_ne fun heq => hrr (tableDir_loc_injective hr hr' hp heq)]
        exact (hacc r' hr').skip rfl (by simp [Event.inserted, Ne.symm hrr])
    · exact hsame (insert_turnedAway (by simp [DbError.Internal]) hrun) (fun _ => rfl) fun _ => rfl
    · exact hsame (insert_turnedAway (by simp [DbError.Internal]) hrun) (fun _ => rfl) fun _ => rfl
  | openAt => exact hread (by simp) (by simp)
  | data rs => exact hread (by simp) (by simp)
  | schema r => exact hread (by simp) (by simp)
  | commitments rs => exact hread (by simp) (by simp)
  | tables => exact hread (by simp) (by simp)

/-- A settled run over flat references is accounted for. -/
theorem Accounted.run (hL : L.Lawful) (hd : fs.lookup db.dir = some .dir)
    (hnone : ∀ c, fs.lookup (db.dir ++ [c]) = none) (hrun : Runs (Step L db) fs hist fs')
    (hflat : ∀ e ∈ hist, ∀ r ∈ e.call.refs, r.Flat) (hsettled : ∀ e ∈ hist, e.Settled) :
    Accounted L db hist fs' :=
  hrun.invariant (P := Accounted L db)
    (A := fun e => (∀ r ∈ e.call.refs, TableRef.Flat r) ∧ e.Settled)
    (fun e he => ⟨hflat e he, hsettled e he⟩)
    ⟨_, Layout.fresh hd hnone, fun _ _ => ⟨by simp, rfl⟩⟩
    fun _ _ _ _ hA hP hstep => hP.step hL hA.1 hA.2 hstep

/-- What `open` leaves behind on an empty or missing directory. -/
theorem openAt_fresh {dir : Loc Name} {fs₀ : Fs} {fates : List Fate} {w : World Fs (Loc Name)}
    (hl : Lossless fates) (hempty : ∀ c, fs₀.lookup (dir ++ [c]) = none)
    (hopen : openAt dir ⟨fs₀, fates, []⟩ = (.ok db, w)) :
    db.dir = dir ∧ w.state.lookup dir = some .dir ∧ ∀ c, w.state.lookup (dir ++ [c]) = none := by
  have hloc : (Path.ofLoc dir).loc = dir := rfl
  rw [openAt, Prog.bind_eq_ok] at hopen
  obtain ⟨u, w₁, hmake, hpure⟩ := hopen
  rw [Prog.pure_run, Prod.mk.injEq] at hpure
  obtain ⟨hdb, rfl⟩ := hpure
  obtain ⟨-, -, hb, -, rfl⟩ := (Disk.createDirAll_ok (w := ⟨fs₀, fates, []⟩) hl).mp hmake
  rw [hloc] at hb ⊢
  refine ⟨by rw [← Outcome.ok.inj hdb], ?_, fun c => ?_⟩
  · simpa using FileTree.lookup_mkdirs_path fs₀ [] dir dir.length fs₀.lookup_root hb le_rfl
      (List.prefix_refl dir)
  · rcases FileTree.lookup_mkdirs fs₀ [] dir dir.length (dir ++ [c]) with h | ⟨-, -, k, -, hk⟩
    · exact h.trans (hempty c)
    · have hlen := congrArg List.length hk
      simp only [List.length_append, List.length_cons, List.length_nil, List.nil_append,
        List.length_take] at hlen
      omega

/-- **When stored data and commitment never drift.**  After any run of settled calls on a database opened on
an empty directory, a table created holds exactly the batches inserted into it, under the schema it was
created with, exactly if that schema has a column. -/
theorem stored_data_never_drifts_iff (hL : L.Lawful) {dir : Loc Name} {fs₀ : Fs} {fates : List Fate}
    {w : World Fs (Loc Name)} (hl : Lossless fates) (hempty : ∀ c, fs₀.lookup (dir ++ [c]) = none)
    (hopen : openAt dir ⟨fs₀, fates, []⟩ = (.ok db, w)) (hrun : Runs (Step L db) w.state hist fs)
    (hflat : ∀ e ∈ hist, ∀ r ∈ e.call.refs, r.Flat) (hsettled : ∀ e ∈ hist, e.Settled)
    {r : TableRef} {schema : Schema} (hcreated : ∃ e ∈ hist, e.created r = some schema) :
    Holds L db fs r ⟨schema, insertedInto hist r⟩ ↔ schema ≠ [] := by
  obtain ⟨hdir, hd, hnone⟩ := openAt_fresh hl hempty hopen
  rw [← hdir] at hd hnone
  obtain ⟨cat, hlay, hacc⟩ := Accounted.run hL hd hnone hrun hflat hsettled
  obtain ⟨e, he, hc⟩ := hcreated
  obtain ⟨setup, hcall, -⟩ := Event.created_eq_some.mp hc
  have hr : r.Flat := hflat e he r (by rw [hcall]; simp [Call.refs])
  have hacc := hacc r hr
  rcases hcat : cat (db.tableDir r).loc with _ | l
  · rw [hcat] at hacc
    rw [hacc.1 e he] at hc
    simp at hc
  · rw [hcat] at hacc
    obtain rfl : l = ⟨schema, insertedInto hist r⟩ := by
      obtain ⟨s, bs⟩ := l
      rw [← hacc.1, hacc.2 e he schema hc]
    obtain ⟨idx, hs⟩ := hlay.inv.stored _ _ (near_tableDir db hr) hcat
    refine ⟨hs.columns_of_holds hL hr.1, fun hcol => hs.holds hL hr.1 (hlay.noNul hr hcat) hcol ?_⟩
    rw [tableDir_loc_plain db (hlay.plain_of_logged hr hcat)]
    exact hlay.tidy _

end Runs

section Sample

open SampleLibs

/-- Creating, inserting, reopening and being turned away. -/
def sampleCalls : List (Call UInt8 ℕ × List Fate) :=
  [(.createTable people ids 9, []), (.createTable places ids 9, []), (.insert people ⟨ids, [1]⟩ 9, []),
    (.insert places ⟨ids, [5]⟩ 9, []), (.createTable people floats 9, []), (.openAt, []),
    (.insert people ⟨ids, []⟩ 9, []), (.insert people ⟨floats, [6]⟩ 9, []),
    (.insert ⟨none, "nobody".toList⟩ ⟨ids, [7]⟩ 9, []), (.insert people ⟨ids, [2, 3]⟩ 9, [])]

def sampleStart : Fs := (openAt home ⟨FileTree.empty, [], []⟩).2.state

theorem stored_data_never_drifts_iff_sample :
    Holds libs ⟨home⟩ (play libs ⟨home⟩ sampleStart sampleCalls).2 people
      ⟨ids, [⟨ids, [1]⟩, ⟨ids, []⟩, ⟨ids, [2, 3]⟩]⟩ := by
  have hopen : openAt home ⟨FileTree.empty, [], []⟩ = (.ok ⟨home⟩, ⟨sampleStart, [], _⟩) := rfl
  have hrun : Runs (Step libs ⟨home⟩) sampleStart (play libs ⟨home⟩ sampleStart sampleCalls).1 _ :=
    runs_play libs ⟨home⟩ (by simp [sampleCalls, Lossless]) sampleStart
  exact (stored_data_never_drifts_iff libs_lawful Lossless.nil (fun _ => FileTree.lookup_empty (by simp)) hopen hrun
    (by decide) (by decide) (by decide)).mpr (by decide)

/-- Creating a table without columns. -/
def bareCreate : Outcome DbError Unit × World Fs (Loc Name) :=
  createTable libs ⟨home⟩ people [] 9 ⟨sampleStart, [], []⟩

/-- **A table without columns** is created, but its file cannot be read: it is not the empty table it was created
as, and neither its schema nor its data can be read, nor a batch inserted. -/
theorem bare_table_cannot_be_read :
    bareCreate.1 = .ok () ∧ ¬ Holds libs ⟨home⟩ bareCreate.2.state people ⟨[], []⟩ ∧
      (schema libs ⟨home⟩ people).eval bareCreate.2.state = .err .parquet ∧
      (tableData libs ⟨home⟩ people).eval bareCreate.2.state = .err .parquet ∧
      (insert libs ⟨home⟩ people ⟨[], []⟩ 9 ⟨bareCreate.2.state, [], []⟩).1 = .err .parquet := by
  have hread : (readSchema libs (batchPath ((⟨home⟩ : Db).tableDir people) 0)).eval bareCreate.2.state =
      .err .parquet := by decide +kernel
  refine ⟨by decide +kernel, fun h => ?_, by decide +kernel, by decide +kernel, by decide +kernel⟩
  obtain ⟨ps, -, -, -, hschema⟩ := h.first
  rw [hread] at hschema
  simp at hschema

end Sample

end Db

end SxtEnterprise
