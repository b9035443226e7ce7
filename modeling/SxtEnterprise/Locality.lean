import SxtEnterprise.DbWrites

/-!
# A table's operations see only its own directory

Two file systems that agree on a directory and what lies directly in it (`SameDir`) cannot be told apart
by the operations of the table whose directory it is: each ends alike on both and leaves them agreeing
again.  This is `Prog.Lockstep` for every step the database takes; so what one table's operations return
can only change by a change in that table's directory.
-/

namespace SxtEnterprise

open NumberedNames Paths FaultyRun

namespace Db

/-- The two file systems agree on `p` and on what lies directly in it. -/
structure SameDir (p : Loc Name) (fs fs' : Fs) : Prop where
  self : fs.lookup p = fs'.lookup p
  entry : ∀ c, fs.lookup (p ++ [c]) = fs'.lookup (p ++ [c])

namespace SameDir

variable {p q : Loc Name} {fs fs' fs₁ fs₁' : Fs} {c : Name} {bytes : Bytes}

theorem refl (p : Loc Name) (fs : Fs) : SameDir p fs fs := ⟨rfl, fun _ => rfl⟩

theorem symm (h : SameDir p fs fs') : SameDir p fs' fs := ⟨h.self.symm, fun c => (h.entry c).symm⟩

theorem trans (h : SameDir p fs fs') (h' : SameDir p fs' fs₁) : SameDir p fs fs₁ :=
  ⟨h.self.trans h'.self, fun c => (h.entry c).trans (h'.entry c)⟩

/-- A file written on both sides. -/
theorem sets (h : SameDir p fs fs') (hs : fs.Sets p c bytes fs₁) (hs' : fs'.Sets p c bytes fs₁') :
    SameDir p fs₁ fs₁' where
  self := by rw [hs.ne (by simp), hs'.ne (by simp), h.self]
  entry d := by
    by_cases hd : p ++ [d] = p ++ [c]
    · rw [hd, hs.self, hs'.self]
    · rw [hs.ne hd, hs'.ne hd, h.entry]

/-- A file written in another directory, that is not this one. -/
theorem of_sets (h : fs.Sets q c bytes fs') (hpq : p ≠ q) (hp : p ≠ q ++ [c]) : SameDir p fs fs' where
  self := (h.ne hp).symm
  entry d := (h.ne (q := p ++ [d]) fun heq => hpq (List.append_inj' heq rfl).1).symm

theorem children_perm (h : SameDir p fs fs') : (fs.children p).Perm (fs'.children p) := by
  rw [List.perm_ext_iff_of_nodup (FileTree.nodup_children _ _) (FileTree.nodup_children _ _)]
  intro c
  rw [FileTree.mem_children, FileTree.mem_children, h.entry]

theorem sorted_children (h : SameDir p fs fs') :
    sorted ((fs.children p).filter isParquet) = sorted ((fs'.children p).filter isParquet) :=
  ((List.perm_insertionSort _ _).trans ((h.children_perm.filter _).trans
    (List.perm_insertionSort _ _).symm)).eq_of_pairwise
      (fun a b _ _ (hab : a ≤ b) (hba : b ≤ a) => le_antisymm hab hba) (sorted_pairwise _) (sorted_pairwise _)

end SameDir

section Calls

variable {dir : Path} {fs fs' : Fs} {c : Name} {bytes : Bytes}

theorem node_same (hdir : dir.Straight) (h : SameDir dir.loc fs fs') : node fs dir = node fs' dir := by
  rw [node_straight fs hdir, node_straight fs' hdir, h.self]

theorem node_entry_same (hdir : dir.Straight) (hc : c ≠ dotdot) (h : SameDir dir.loc fs fs') :
    node fs (entryPath dir c) = node fs' (entryPath dir c) := by
  rw [node_entryPath fs hdir hc, node_entryPath fs' hdir hc, h.entry]

theorem lockstep_pathExists (hdir : dir.Straight) :
    (Disk.pathExists dir : Io DbError Bool).Lockstep (SameDir dir.loc) := by
  rw [Disk.pathExists]
  split
  · exact Prog.Lockstep.done _
  · exact Prog.Lockstep.probe fun fs fs' h => by rw [node_same hdir h]

theorem lockstep_readCall {α : Type} {R : Fs → Fs → Prop} {path : Path} {f : List ℕ → Fs → Option α}
    (hf : ∀ fs fs', R fs fs' → f [] fs = f [] fs') : (Disk.readCall path f : Io DbError α).Lockstep R := by
  rw [Disk.readCall, Disk.guardNul]
  split
  · exact Prog.Lockstep.fail _
  · exact Prog.Lockstep.sysCall (fun fs fs' h => ⟨hf fs fs' h, h⟩) (fun _ _ _ h => h) fun _ _ _ h => h

theorem lockstep_openFile {path : Path} {R : Fs → Fs → Prop}
    (h : ∀ fs fs', R fs fs' → node fs path = node fs' path) :
    (Disk.openFile path : Io DbError _).Lockstep R := lockstep_readCall h

theorem lockstep_read {path : Path} {R : Fs → Fs → Prop}
    (h : ∀ fs fs', R fs fs' → node fs path = node fs' path) :
    (Disk.read path : Io DbError _).Lockstep R := 
  lockstep_readCall fun fs fs' hR => by simp only [h fs fs' hR]

/-- What is done with the result of a call can be done inside it. -/
theorem readCall_map {α β : Type} {path : Path} (f : List ℕ → Fs → Option α) (g : α → β) :
    (do
      let a ← Disk.readCall path f
      pure (g a) : Io DbError β) = Disk.readCall path fun lost fs => (f lost fs).map g := by
  funext w
  rw [Disk.readCall, Disk.readCall, Disk.guardNul, Disk.guardNul]
  by_cases hnul : path.hasNul = true
  · rw [if_pos hnul, if_pos hnul]
    rfl
  · rw [if_neg hnul, if_neg hnul, Prog.andThen_run, Prog.sysCall, Prog.sysCall]
    rcases w.fates.headD .ok with _ | cut | cut | lost
    · rcases h : f [] w.state with _ | a <;> simp [Prog.answer, Prog.castStop]
    · rfl
    · rfl
    · rcases h : f lost w.state with _ | a <;> simp [h, Prog.answer, Prog.castStop]

/-- The listing is sorted, so the order in which the directory is read is not seen. -/
theorem lockstep_parquetPaths (hdir : dir.Straight) : (parquetPaths dir).Lockstep (SameDir dir.loc) := by
  rw [parquetPaths, Disk.readDir, readCall_map]
  refine lockstep_readCall fun fs fs' h => ?_
  rw [Disk.entries_straight hdir, Disk.entries_straight hdir, ← h.self]
  split
  · simp only [Option.map_some, Option.some.injEq, List.filterMap_map]
    simpa using congrArg (List.map (entryPath dir)) h.sorted_children
  · rfl

/-- The paths listed are those of entries with a parquet name. -/
theorem mem_of_parquetPaths {w : World Fs (Loc Name)} {ps : List Path}
    (h : (parquetPaths dir w).1 = .ok ps) : ∀ path ∈ ps, ∃ c, isParquet c = true ∧ path = entryPath dir c := by
  rw [parquetPaths, Prog.andThen_run] at h
  rcases hr : (Disk.readDir dir w : Outcome DbError _ × _).1 with es | _ | _ | _ <;> rw [hr] at h
  · change Outcome.ok _ = Outcome.ok ps at h
    rw [Outcome.ok.injEq] at h
    intro path hp
    rw [← h, List.mem_map] at hp
    obtain ⟨c, hc, rfl⟩ := hp
    exact ⟨c, (List.mem_filter.mp (mem_sorted.mp hc)).2, rfl⟩
  all_goals simp [Prog.castStop] at h

end Calls

/-! ### The operations of one table -/

section Table

variable {ρ κ σ : Type} {L : Libs ρ κ σ} {db : Db} {r : TableRef} {dir : Path} {fs fs' : Fs}

theorem lockstep_parquetBytes (n : Node Bytes) {R : Fs → Fs → Prop} : (parquetBytes n).Lockstep R := by
  cases n with
  | dir => exact Prog.Lockstep.fail _
  | file b => exact Prog.Lockstep.pure _

theorem lockstep_readSchema (hdir : dir.Straight) {c : Name} (hc : c ≠ dotdot) :
    (readSchema L (entryPath dir c)).Lockstep (SameDir dir.loc) :=
  (lockstep_openFile fun _ _ h => node_entry_same hdir hc h).bind fun n _ =>
    (lockstep_parquetBytes n).bind fun _ _ => Prog.Lockstep.ofOption _ _

theorem lockstep_readBatch {path : Path} {R : Fs → Fs → Prop}
    (h : ∀ fs fs', R fs fs' → node fs path = node fs' path) : (readBatch L path).Lockstep R :=
  (lockstep_openFile h).bind fun n _ =>
    (lockstep_parquetBytes n).bind fun _ _ => (Prog.Lockstep.ofOption _ _).bind fun _ _ =>
      (Prog.Lockstep.ofOption _ _).bind fun _ _ => Prog.Lockstep.ofOption _ _

theorem lockstep_readCommitment (hdir : dir.Straight) :
    (readCommitment L (commitPath dir)).Lockstep (SameDir dir.loc) :=
  (lockstep_read fun fs fs' h => by
    rw [commitPath, node_join fs plain_commitName hdir, node_join fs' plain_commitName hdir, h.entry]).bind
      fun _ _ => (Prog.Lockstep.ofOption _ _).bind fun _ _ => Prog.Lockstep.pure _

/-- The first schema, and every path it comes with, lies in the directory. -/
theorem lockstep_firstSchema (hdir : dir.Straight) : (firstSchema L dir).Lockstep (SameDir dir.loc) := by
  refine (lockstep_parquetPaths hdir).bind fun paths hpaths => ?_
  obtain ⟨w, hw⟩ := hpaths
  rcases hhead : paths.head? with _ | first
  · exact (Prog.Lockstep.fail _).bind fun _ h => by obtain ⟨w, hw⟩ := h; simp at hw
  · obtain ⟨c, hc, rfl⟩ := mem_of_parquetPaths hw first (List.mem_of_head? hhead)
    exact (lockstep_readSchema hdir (ne_dotdot_of_isParquet hc)).bind fun _ _ => Prog.Lockstep.pure _

theorem paths_of_firstSchema {first : List Path × Schema} {w : World Fs (Loc Name)}
    (h : (firstSchema L dir w).1 = .ok first) :
    ∀ path ∈ first.1, ∃ c, isParquet c = true ∧ path = entryPath dir c := by
  obtain ⟨ps, w₁, hps, h⟩ := Prog.bind_eq_ok.mp (Prod.ext h rfl : firstSchema L dir w = (.ok first, _))
  obtain ⟨_, _, _, h⟩ := Prog.bind_eq_ok.mp h
  obtain ⟨_, _, _, h⟩ := Prog.bind_eq_ok.mp h
  rw [Prog.pure_run, Prod.mk.injEq, Outcome.ok.injEq] at h
  rw [← h.1]
  exact mem_of_parquetPaths (w := w) (by rw [hps])

/-- The test every operation starts with, and what follows it. -/
theorem lockstep_ifPresent (hr : r.Parsed) {α : Type} {m : Io DbError α}
    (hm : m.Lockstep (SameDir (db.tableDir r).loc)) :
    (do
      let present ← Disk.pathExists (db.tableDir r)
      if !present then Prog.fail (.notFound r) else m : Io DbError α).Lockstep
        (SameDir (db.tableDir r).loc) := by
  refine (lockstep_pathExists (tableDir_straight db hr)).bind fun present _ => ?_
  cases present with
  | false => exact Prog.Lockstep.fail _
  | true => exact hm

theorem lockstep_tableData (hr : r.Parsed) : (tableData L db r).Lockstep (SameDir (db.tableDir r).loc) := by
  have hdir := tableDir_straight db hr
  rw [tableData_eq]
  refine lockstep_ifPresent hr ((lockstep_firstSchema hdir).bind fun first hfirst => ?_)
  obtain ⟨w, hw⟩ := hfirst
  refine (Prog.Lockstep.mapM fun path hp => ?_).bind fun _ _ => Prog.Lockstep.ofOption _ _
  obtain ⟨c, hc, rfl⟩ := paths_of_firstSchema hw path hp
  exact lockstep_readBatch fun _ _ h => node_entry_same hdir (ne_dotdot_of_isParquet hc) h

theorem lockstep_schema (hr : r.Parsed) : (schema L db r).Lockstep (SameDir (db.tableDir r).loc) := by
  rw [schema_eq]
  refine lockstep_ifPresent hr ?_
  rw [map_eq_pure_bind]
  exact (lockstep_firstSchema (tableDir_straight db hr)).bind fun _ _ => Prog.Lockstep.pure _

theorem lockstep_tableCommitment (hr : r.Parsed) :
    (tableCommitment L db r).Lockstep (SameDir (db.tableDir r).loc) :=
  lockstep_ifPresent hr (lockstep_readCommitment (tableDir_straight db hr))

/-- Making a directory directly below one that is there, on both sides. -/
theorem SameDir.mkdir {p : Loc Name} {c : Name} (h : SameDir (p ++ [c]) fs fs') (hp : fs.lookup p = some .dir)
    (hp' : fs'.lookup p = some .dir) (hm : fs.lookup (p ++ [c]) = none) :
    SameDir (p ++ [c]) (fs.mkdir p c) (fs'.mkdir p c) where
  self := by
    rw [FileTree.lookup_mkdir _ hp hm, FileTree.lookup_mkdir _ hp' (h.self ▸ hm), if_pos rfl, if_pos rfl]
  entry d := by
    rw [FileTree.lookup_mkdir _ hp hm, FileTree.lookup_mkdir _ hp' (h.self ▸ hm), if_neg (by simp),
      if_neg (by simp), h.entry]

/-- Everything that is read of the table `r` is the same in both file systems. -/
structure SameTable (L : Libs ρ κ σ) (db : Db) (r : TableRef) (fs fs' : Fs) : Prop where
  data : (tableData L db r).eval fs = (tableData L db r).eval fs'
  schema : (Db.schema L db r).eval fs = (Db.schema L db r).eval fs'
  commitment : (tableCommitment L db r).eval fs = (tableCommitment L db r).eval fs'

theorem SameDir.sameTable (hr : r.Parsed) (h : SameDir (db.tableDir r).loc fs fs') :
    SameTable L db r fs fs' :=
  ⟨(lockstep_tableData hr).eval h, (lockstep_schema hr).eval h, (lockstep_tableCommitment hr).eval h⟩

/-- Storing a batch touches nothing but its own file and that of the commitment. -/
theorem StoreLeft.lookup_ne {p q : Loc Name} {n : ℕ} {batch : RecordBatch ρ} {made : Except Failure κ}
    {fates : List Fate} {o : Outcome DbError Unit} (h : StoreLeft L fs p n batch made fates o fs')
    (hb : q ≠ p ++ [batchName n]) (hc : q ≠ p ++ [commitName]) : fs'.lookup q = fs.lookup q := by
  cases h with
  | noParquet _ _ hset => exact hset.ne hb
  | partBatch _ _ _ hset => exact hset.ne hb
  | batchOnly _ _ _ hset _ => exact hset.ne hb
  | partCommit _ _ _ hset _ _ _ _ hset' => exact (hset'.ne hc).trans (hset.ne hb)
  | all _ hset _ _ hset' => exact (hset'.ne hc).trans (hset.ne hb)

/-- Storing a batch leaves the parquet files under other names as they were. -/
theorem StoreLeft.parquet_ne {p : Loc Name} {n : ℕ} {batch : RecordBatch ρ} {made : Except Failure κ}
    {fates : List Fate} {o : Outcome DbError Unit} {c : Name} (h : StoreLeft L fs p n batch made fates o fs')
    (hc : isParquet c = true) (hn : c ≠ batchName n) : fs'.lookup (p ++ [c]) = fs.lookup (p ++ [c]) := by
  refine h.lookup_ne (by simpa using hn) ?_
  have hcommit : c ≠ commitName := by
    rintro rfl
    rw [isParquet_commitName] at hc
    simp at hc
  simpa using hcommit

/-- Storing a batch touches nothing but files in its directory. -/
theorem StoreLeft.lookup_eq {p q : Loc Name} {n : ℕ} {batch : RecordBatch ρ} {made : Except Failure κ}
    {fates : List Fate} {o : Outcome DbError Unit} (h : StoreLeft L fs p n batch made fates o fs')
    (hq : ∀ c, q ≠ p ++ [c]) : fs'.lookup q = fs.lookup q := h.lookup_ne (hq _) (hq _)

/-- Storing a batch leaves every other table that is there as it was. -/
theorem StoreLeft.sameDir_of_isDir {p q : Loc Name} {n : ℕ} {batch : RecordBatch ρ}
    {made : Except Failure κ} {fates : List Fate} {o : Outcome DbError Unit}
    (h : StoreLeft L fs p n batch made fates o fs') (hq : q ≠ p) (hd : fs.lookup q = some .dir) :
    SameDir q fs fs' := by
  have hset : ∀ {fs₁ fs₂ : Fs} {c bytes}, fs₁.Sets p c bytes fs₂ → fs₁.lookup q = some .dir →
      SameDir q fs₁ fs₂ := fun hs hd => SameDir.of_sets hs hq (by rintro rfl; exact hs.notDir hd)
  cases h with
  | noParquet _ _ hs => exact hset hs hd
  | partBatch _ _ _ hs => exact hset hs hd
  | batchOnly _ _ _ hs _ => exact hset hs hd
  | partCommit _ _ _ hs _ _ _ _ hs' => exact (hset hs hd).trans (hset hs' ((hs.isDir_iff q).mpr hd))
  | all _ hs _ _ hs' => exact (hset hs hd).trans (hset hs' ((hs.isDir_iff q).mpr hd))

end Table

/-! ### What every write leaves as it is -/

section Respects

variable {ρ κ σ : Type} {L : Libs ρ κ σ} {db : Db} {r : TableRef} {setup : σ} {R : Fs → Fs → Prop}

/-- Making directories and storing a batch, and so any number of both, change files only as `R` allows. -/
structure Respects (L : Libs ρ κ σ) (R : Fs → Fs → Prop) : Prop where
  refl : ∀ fs, R fs fs
  trans : ∀ {fs₁ fs₂ fs₃}, R fs₁ fs₂ → R fs₂ fs₃ → R fs₁ fs₃
  mkdirs : ∀ fs p k, R fs (fs.mkdirs [] p k)
  store : ∀ {fs p n batch made fates o fs'}, StoreLeft L fs p n batch made fates o fs' → R fs fs'

theorem Respects.createTable (hR : Respects L R) {schema : Schema} :
    (createTable L db r schema setup).Leaves R := by
  intro w hl
  rcases hrun : Db.createTable L db r schema setup w with ⟨o, w'⟩
  rcases createTable_cases hl hrun with ⟨-, -, hsame⟩ | ⟨-, ⟨-, k, hk⟩ | ⟨fs₁, rfl, -, -, hleft⟩⟩
  · exact hsame ▸ hR.refl _
  · exact hk ▸ hR.mkdirs _ _ k
  · exact hR.trans (hR.mkdirs _ _ _) (hR.store hleft)

theorem Respects.insert (hR : Respects L R) {batch : RecordBatch ρ} (hr : r.Parsed) :
    (insert L db r batch setup).Leaves R := by
  intro w hl
  rcases hrun : Db.insert L db r batch setup w with ⟨o, w'⟩
  rcases insert_cases hr hl hrun with ⟨hsame, -⟩ | ⟨n, k, -, -, -, hleft⟩
  · exact hsame ▸ hR.refl _
  · exact hR.store hleft

end Respects

end Db

end SxtEnterprise
