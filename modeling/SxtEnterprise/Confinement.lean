import SxtEnterprise.Cli
import SxtEnterprise.DbRuns
import SxtEnterprise.Locality
import SxtEnterprise.SampleLibs

/-!
# Where a table reference leads

A table reference is joined to the database's directory as it is, and so is a key of a response to the directory of
pinned commitments.  Whatever an operation calls, it calls on the table's directory or on what lies directly in it
(`touches_createTable`, ...), so the question is where that directory is.  A parsed reference cannot step back, but it
can be absolute, have several parts, or none.

* `confined_iff`: the operations on a reference stay within one child of the database's directory exactly if its parts
  are one part, or are those of an absolute path to such a child, or hold a NUL, in which case nothing is called.
* `pinned_confined_iff`: the key of a response need not be a reference, since its file is read before it is parsed; it
  can step back.
* `names_stay_inside_iff`: both together.  `absolute_name_escapes` is a table made outside the database.
-/

namespace SxtEnterprise

open NumberedNames Paths FaultyRun

namespace Db

/-- Calls on the directory `dir` and on what lies directly in it; none, if the operating system cannot be asked for
it. -/
def At (dir : Path) (q : Loc Name) : Prop := dir.hasNul = false ∧ Near dir.loc q

/-- One of the directories in `dir`, and what lies directly in it. -/
def InChild (dir q : Loc Name) : Prop := ∃ c, Near (dir ++ [c]) q

/-- What lies directly in one of the directories in `dir`. -/
def InChildDir (dir q : Loc Name) : Prop := ∃ c f, q = dir ++ [c, f]

section Touches

variable {ρ κ σ : Type} {L : Libs ρ κ σ} {db : Db} {dir path : Path} {S : Loc Name → Prop}

theorem at_self (h : dir.hasNul = false) : At dir dir.loc := ⟨h, Or.inl rfl⟩

theorem at_entryPath {c : Name} (hc : c ≠ dotdot) (h : (entryPath dir c).hasNul = false) :
    At dir (entryPath dir c).loc := by
  rw [hasNul_entryPath, Bool.or_eq_false_iff] at h
  exact ⟨h.1, Or.inr ⟨c, loc_entryPath hc⟩⟩

theorem at_batchPath {n : ℕ} (h : (batchPath dir n).hasNul = false) : At dir (batchPath dir n).loc :=
  ⟨by rwa [hasNul_batchPath] at h, Or.inr ⟨_, loc_batchPath n⟩⟩

theorem at_commitPath (h : (commitPath dir).hasNul = false) : At dir (commitPath dir).loc :=
  ⟨by rwa [hasNul_commitPath] at h, Or.inr ⟨_, loc_commitPath⟩⟩

theorem touches_orPanic {α : Type} {e : DbError} {x : Except Failure α} : (orPanic e x).Touches S := by
  rcases x with (_ | _) | a
  · exact Prog.Touches.fail _
  · exact Prog.Touches.ofOutcome _
  · exact Prog.Touches.done _

theorem touches_parquetBytes {n : Node Bytes} : (parquetBytes n).Touches S := by
  cases n with
  | dir => exact Prog.Touches.fail _
  | file bytes => exact Prog.Touches.pure _

theorem touches_readSchema (h : path.hasNul = false → S path.loc) : (readSchema L path).Touches S :=
  (Disk.touches_readCall h).bind fun _ => touches_parquetBytes.bind fun _ => Prog.Touches.ofOption _ _

theorem touches_readBatch (h : path.hasNul = false → S path.loc) : (readBatch L path).Touches S :=
  (Disk.touches_readCall h).bind fun _ => touches_parquetBytes.bind fun _ => (Prog.Touches.ofOption _ _).bind fun _ =>
    (Prog.Touches.ofOption _ _).bind fun _ => Prog.Touches.ofOption _ _

theorem touches_readCommitment (h : path.hasNul = false → S path.loc) : (readCommitment L path).Touches S :=
  (Disk.touches_readCall h).bind fun _ => (Prog.Touches.ofOption _ _).bind fun _ => Prog.Touches.pure _

theorem touches_store {n : ℕ} {batch : RecordBatch ρ} {e : DbError} {made : Except Failure κ} :
    (store L dir n batch e made).Touches (At dir) :=
  ((Disk.touches_create at_batchPath).bind fun _ => (Prog.Touches.ofOption _ _).bind fun _ =>
    Disk.touches_writeAll at_batchPath).bind fun _ => touches_orPanic.bind fun _ =>
      (Prog.Touches.ofOption _ _).bind fun _ => Disk.touches_write at_commitPath

theorem touches_parquetPaths : (parquetPaths dir).Touches (At dir) :=
  (Disk.touches_readCall at_self).bind fun _ => Prog.Touches.pure _

theorem touches_firstSchema : (firstSchema L dir).Touches (At dir) := by
  apply touches_parquetPaths.bind_of
  intro paths w hpaths
  apply (Prog.Touches.ofOption _ _).bind_of
  intro first w' hfirst
  have hhead : paths.head? = some first := (Prog.ofOption_eq_ok.mp (Prod.ext hfirst rfl)).1
  obtain ⟨c, hc, rfl⟩ := mem_of_parquetPaths hpaths first (List.mem_of_head? hhead)
  exact (touches_readSchema (at_entryPath (ne_dotdot_of_isParquet hc))).bind fun _ => Prog.Touches.pure _

/-- Every operation begins by testing for the table's directory. -/
theorem touches_ifPresent {α : Type} {r : TableRef} {m : Io DbError α} (h : m.Touches (At (db.tableDir r))) :
    (do
      let present ← Disk.pathExists (db.tableDir r)
      if !present then Prog.fail (.notFound r) else m : Io DbError α).Touches (At (db.tableDir r)) := by
  apply (Disk.touches_pathExists at_self).bind
  intro present
  cases present with
  | false => exact Prog.Touches.fail _
  | true => exact h

variable {r : TableRef}

theorem touches_createTable {schema : Schema} {setup : σ} :
    (createTable L db r schema setup).Touches (At (db.tableDir r)) := by
  rw [createTable_eq]
  apply (Disk.touches_pathExists at_self).bind
  intro present
  cases present with
  | true => exact Prog.Touches.fail _
  | false => exact (Disk.touches_createDirAll at_self).bind fun _ => touches_store

theorem touches_insert {batch : RecordBatch ρ} {setup : σ} :
    (insert L db r batch setup).Touches (At (db.tableDir r)) := by
  rw [insert_eq]
  apply Prog.Touches.bind _ fun _ => touches_store
  apply touches_ifPresent
  apply touches_firstSchema.bind
  intro first
  split
  · exact Prog.Touches.fail _
  · exact (touches_readCommitment at_commitPath).bind fun _ => Prog.Touches.pure _

theorem touches_schema : (schema L db r).Touches (At (db.tableDir r)) := by
  rw [schema_eq]
  apply touches_ifPresent
  rw [map_eq_pure_bind]
  exact touches_firstSchema.bind fun _ => Prog.Touches.pure _

theorem touches_tableCommitment : (tableCommitment L db r).Touches (At (db.tableDir r)) :=
  touches_ifPresent (touches_readCommitment at_commitPath)

theorem touches_tableData : (tableData L db r).Touches (At (db.tableDir r)) := by
  rw [tableData_eq]
  apply touches_ifPresent
  apply touches_firstSchema.bind_of
  intro first w hfirst
  refine Prog.Touches.bind (Prog.Touches.mapM fun path hpath => ?_) fun _ => Prog.Touches.ofOption _ _
  obtain ⟨c, hc, rfl⟩ := paths_of_firstSchema hfirst path hpath
  exact touches_readBatch (at_entryPath (ne_dotdot_of_isParquet hc))

end Touches

end Db

/-- The commitment pinned under a key is read from one file of the directory the key leads to, and nothing else is. -/
theorem Cli.touches_pinnedCommitment {ρ κ σ : Type} {L : Libs ρ κ σ} {dir : Path} {key : Name} :
    (Cli.pinnedCommitment L dir key).Touches fun q =>
      (dir.join key).hasNul = false ∧ q = (dir.join key).loc ++ [Db.commitName] :=
  (Disk.touches_readCall fun hnul => ⟨by rwa [← Db.hasNul_commitPath], Db.loc_commitPath⟩).bind fun _ =>
    (Prog.Touches.ofOption _ _).bind fun _ => (Prog.Touches.ofOption _ _).bind fun _ => Prog.Touches.pure _

/-! ### Where the directory is -/

namespace Db

variable {ρ κ σ : Type} (L : Libs ρ κ σ) (db : Db)

/-- Whatever is done on behalf of `r`, in the database or with the commitments pinned in it, is done on locations in
`S`, and nothing else changes. -/
structure Confined (r : TableRef) (S : Loc Name → Prop) : Prop where
  createTable : ∀ schema setup, (createTable L db r schema setup).Touches S
  insert : ∀ batch setup, (insert L db r batch setup).Touches S
  data : (tableData L db r).Touches S
  schema : (schema L db r).Touches S
  commitment : (tableCommitment L db r).Touches S
  pinned : (Cli.pinnedCommitment L (Path.ofLoc db.dir) r.toString).Touches S
  created : ∀ schema setup w q, Lossless w.fates → w.state.lookup db.dir = some .dir →
    (Db.createTable L db r schema setup w).2.state.lookup q ≠ w.state.lookup q → S q
  inserted : ∀ batch setup w q, Lossless w.fates →
    (Db.insert L db r batch setup w).2.state.lookup q ≠ w.state.lookup q → S q

variable {L db} {r : TableRef} {s : Name}

/-- Where a reference's directory is, by its parts. -/
theorem tableDir_loc_eq (hs : TableRef.fromStr s = some r) :
    (db.tableDir r).loc = if s.head? = some '/' then components s else db.dir ++ components s := by
  rw [Path.loc_straight (tableDir_straight db ⟨s, hs⟩), tableDir, TableRef.toString_of_fromStr hs, Path.join]
  split
  · rfl
  · rfl

/-! ### What is called, and what changes -/

/-- A path that the operating system cannot be asked for changes nothing. -/
theorem createTable_nul {schema : Schema} {setup : σ} {w : World Fs (Loc Name)} (h : (db.tableDir r).hasNul = true) :
    (createTable L db r schema setup w).2 = w := by
  rw [createTable_eq, Disk.pathExists, if_pos h, Disk.createDirAll, Disk.guardNul, if_pos h]
  rfl

/-- What a create changes, if the table's directory is to lie directly in the database's: that directory and files in
it. -/
theorem createTable_changes {schema : Schema} {setup : σ} {w : World Fs (Loc Name)} {c : Name} {q : Loc Name}
    (hloc : (db.tableDir r).loc = db.dir ++ [c]) (hl : Lossless w.fates) (hd : w.state.lookup db.dir = some .dir)
    (hq : (createTable L db r schema setup w).2.state.lookup q ≠ w.state.lookup q) : Near (db.dir ++ [c]) q := by
  have hmade : ∀ k, (w.state.mkdirs [] (db.tableDir r).loc k).lookup q ≠ w.state.lookup q →
      q = db.dir ++ [c] := by
    intro k hne
    rcases FileTree.lookup_mkdirs w.state [] (db.tableDir r).loc k q with h | ⟨hnone, -, j, -, rfl⟩
    · exact absurd h hne
    · -- the directories above the table's are there
      rw [List.nil_append, hloc] at hnone ⊢
      rcases Nat.lt_or_ge db.dir.length j with hj | hj
      · rw [List.take_of_length_le (by simpa using hj)]
      · rw [List.take_append_of_le_length hj] at hnone
        obtain ⟨rest, hrest⟩ := List.take_prefix j db.dir
        by_cases hnil : rest = []
        · rw [hnil, List.append_nil] at hrest
          rw [hrest, hd] at hnone
          simp at hnone
        · have habove := w.state.lookup_above (p := db.dir.take j) rest hnil (by rw [hrest, hd]; simp)
          rw [hnone] at habove
          simp at habove
  rcases hrun : createTable L db r schema setup w with ⟨o, w'⟩
  rw [hrun] at hq
  rcases createTable_cases hl hrun with ⟨-, -, hsame⟩ | ⟨-, ⟨-, k, hk⟩ | ⟨fs₁, hfs₁, -, -, hleft⟩⟩
  · exact absurd (by rw [hsame]) hq
  · rw [hk] at hq
    exact Or.inl (hmade k hq)
  · by_cases hfile : ∃ f, q = (db.tableDir r).loc ++ [f]
    · rw [← hloc]
      exact Or.inr hfile
    · rw [hleft.lookup_eq fun f hf => hfile ⟨f, hf⟩, hfs₁] at hq
      exact Or.inl (hmade _ hq)

/-- What an insert changes: files in the table's directory. -/
theorem insert_changes {batch : RecordBatch ρ} {setup : σ} {w : World Fs (Loc Name)} {q : Loc Name} (hr : r.Parsed)
    (hl : Lossless w.fates) (hq : (insert L db r batch setup w).2.state.lookup q ≠ w.state.lookup q) :
    At (db.tableDir r) q := by
  rcases hrun : insert L db r batch setup w with ⟨o, w'⟩
  rw [hrun] at hq
  rcases insert_cases hr hl hrun with ⟨hsame, -⟩ | ⟨n, k, hpres, -, -, hleft⟩
  · exact absurd (by rw [hsame]) hq
  · refine ⟨noNul_of_present hpres, Or.inr ?_⟩
    by_contra hfile
    exact hq (hleft.lookup_eq fun f hf => hfile ⟨f, hf⟩)

/-- A commitment file that cannot be read has been called for. -/
theorem read_commitPath_fail {ε : Type} [FromIo ε] {dir : Path} (h : dir.hasNul = false) (log : List (Loc Name)) :
    (Disk.read (commitPath dir) : Io ε Bytes) ⟨FileTree.empty, [.fail 0], log⟩ =
      (.err FromIo.io, ⟨FileTree.empty, [], (dir.loc ++ [commitName]) :: log⟩) := by
  have hnul : (commitPath dir).hasNul = false := by rwa [hasNul_commitPath]
  rw [Disk.read, Disk.readCall, Disk.guardNul, if_neg (by simp [hnul]), loc_commitPath]
  rfl

/-- Reading a commitment begins with a test for the table's directory. -/
theorem commitment_first (h : (db.tableDir r).hasNul = false) :
    (db.tableDir r).loc ∈ (tableCommitment L db r ⟨FileTree.empty, [.fail 0], []⟩).2.log := by
  rw [tableCommitment, Prog.andThen_run, Disk.pathExists, if_neg (by simp [h])]
  show _ ∈ ((if !(node FileTree.empty (db.tableDir r)).isSome then Prog.fail _ else readCommitment L _ :
    Io DbError κ) ⟨FileTree.empty, [.fail 0], [(db.tableDir r).loc]⟩).2.log
  split
  · simp
  · rw [readCommitment, Prog.andThen_run, read_commitPath_fail h]
    simp

/-- Reading a pinned one begins with its file. -/
theorem pinned_first {dir : Path} {key : Name} (h : (dir.join key).hasNul = false) :
    (dir.join key).loc ++ [commitName] ∈ (Cli.pinnedCommitment L dir key ⟨FileTree.empty, [.fail 0], []⟩).2.log := by
  have hrun : Cli.pinnedCommitment L dir key ⟨FileTree.empty, [.fail 0], []⟩ =
      (.err FromIo.io, ⟨FileTree.empty, [], [(dir.join key).loc ++ [commitName]]⟩) := by
    rw [Cli.pinnedCommitment, show (dir.join key).join commitName = commitPath (dir.join key) from rfl,
      Prog.andThen_run, read_commitPath_fail h]
    rfl
  rw [hrun]
  simp

/-- The parts of an accepted string, and where they lead. -/
theorem components_eq_iff (hs : TableRef.fromStr s = some r) (c : Name) :
    (components s = if s.head? = some '/' then db.dir ++ [c] else [c]) ↔ (db.tableDir r).loc = db.dir ++ [c] := by
  rw [tableDir_loc_eq hs]
  split
  · rfl
  · rw [List.append_cancel_left_eq]

/-- **A reference is confined** exactly if its directory is one of those in the database's, or nothing is called. -/
theorem confined_iff_loc (hr : r.Parsed) : Confined L db r (InChild db.dir) ↔
    (db.tableDir r).hasNul = true ∨ ∃ c, (db.tableDir r).loc = db.dir ++ [c] := by
  constructor
  · intro h
    rcases hnul : (db.tableDir r).hasNul with _ | _
    · right
      obtain ⟨c, hc⟩ := (h.commitment _ _ (commitment_first hnul)).resolve_left (by simp)
      rcases hc with hc | ⟨f, hc⟩
      · exact ⟨c, hc⟩
      · -- then what is pinned is read from too deep
        have hread : (db.tableDir r).loc ++ [commitName] ∈ _ := pinned_first (L := L) hnul
        obtain ⟨c', hc'⟩ := (h.pinned _ _ hread).resolve_left (by simp)
        rw [hc] at hc'
        rcases hc' with hc' | ⟨f', hc'⟩
        · have := congrArg List.length hc'
          simp at this
        · have := congrArg List.length hc'
          simp at this
    · exact Or.inl rfl
  · intro h
    have hat : ∀ q, At (db.tableDir r) q → InChild db.dir q := by
      rintro q ⟨hnul, hq⟩
      rcases h with h | ⟨c, hc⟩
      · rw [hnul] at h
        simp at h
      · exact ⟨c, hc ▸ hq⟩
    have hcalls : ∀ {ε α : Type} {m : Io ε α}, m.Touches (At (db.tableDir r)) → m.Touches (InChild db.dir) :=
      fun hm w t ht => (hm w t ht).imp_right (hat t)
    have hpinned : (Cli.pinnedCommitment L (Path.ofLoc db.dir) r.toString).Touches (InChild db.dir) :=
      fun w t ht => (Cli.touches_pinnedCommitment w t ht).imp_right fun ⟨hnul, hq⟩ => hat t ⟨hnul, Or.inr ⟨_, hq⟩⟩
    refine ⟨fun _ _ => hcalls touches_createTable, fun _ _ => hcalls touches_insert, hcalls touches_tableData,
      hcalls touches_schema, hcalls touches_tableCommitment, hpinned, ?_, ?_⟩
    · intro schema setup w q hl hd hq
      rcases h with h | ⟨c, hc⟩
      · exact absurd (by rw [createTable_nul h]) hq
      · exact ⟨c, createTable_changes hc hl hd hq⟩
    · intro batch setup w q hl hq
      exact hat q (insert_changes hr hl hq)

/-- **Which references are confined.**  For every string accepted as a table reference: whatever the database does on
its behalf, and whatever `verify` reads for it as a key, is done within one of the directories in the database's
directory, exactly if the parts of the string are one part, or those of an absolute path to such a directory, or the
string holds a NUL. -/
theorem confined_iff (hs : TableRef.fromStr s = some r) : Confined L db r (InChild db.dir) ↔
    (db.tableDir r).hasNul = true ∨ ∃ c, components s = if s.head? = some '/' then db.dir ++ [c] else [c] := by
  simp only [components_eq_iff hs]
  exact confined_iff_loc ⟨s, hs⟩

/-! ### Keys of a response -/

/-- Where a string leads from a directory. -/
theorem loc_join (dir : Path) (s : Name) :
    (dir.join s).loc = (components s).foldl Path.stepTo (if s.head? = some '/' then [] else dir.loc) := by
  rw [Path.join]
  split
  · rfl
  · rw [Path.loc, List.foldl_append]
    rfl

/-- **Which keys are confined**: those whose parts, followed from the directory, lead to one of the directories in
it. -/
theorem pinned_confined_iff {dir : Path} {key : Name} :
    (Cli.pinnedCommitment L dir key).Touches (InChildDir dir.loc) ↔ (dir.join key).hasNul = true ∨
      ∃ c, (components key).foldl Path.stepTo (if key.head? = some '/' then [] else dir.loc) = dir.loc ++ [c] := by
  rw [← loc_join]
  constructor
  · intro h
    rcases hnul : (dir.join key).hasNul with _ | _
    · obtain ⟨c, f, hq⟩ := (h _ _ (pinned_first hnul)).resolve_left (by simp)
      rw [show dir.loc ++ [c, f] = (dir.loc ++ [c]) ++ [f] by simp] at hq
      exact Or.inr ⟨c, (List.append_inj' hq rfl).1⟩
    · exact Or.inl rfl
  · rintro h w t ht
    refine (Cli.touches_pinnedCommitment w t ht).imp_right ?_
    rintro ⟨hnul, rfl⟩
    rcases h with h | ⟨c, hc⟩
    · rw [hnul] at h
      simp at h
    · exact ⟨c, commitName, by rw [hc]; simp⟩

/-- **Which names stay inside**: the strings accepted as table references, by their parts, and the keys of a response,
by where they lead. -/
theorem names_stay_inside_iff (L : Libs ρ κ σ) (db : Db) :
    (∀ s r, TableRef.fromStr s = some r → (Confined L db r (InChild db.dir) ↔
      (db.tableDir r).hasNul = true ∨ ∃ c, components s = if s.head? = some '/' then db.dir ++ [c] else [c])) ∧
    ∀ (dir : Path) (key : Name), (Cli.pinnedCommitment L dir key).Touches (InChildDir dir.loc) ↔
      (dir.join key).hasNul = true ∨
        ∃ c, (components key).foldl Path.stepTo (if key.head? = some '/' then [] else dir.loc) = dir.loc ++ [c] := by
  refine ⟨fun s r hs => ?_, fun dir key => pinned_confined_iff⟩
  simp only [components_eq_iff hs]
  exact confined_iff_loc ⟨s, hs⟩

section Sample

open SampleLibs (libs home people ids)

/-- A reference without a schema. -/
def named (s : String) : TableRef := ⟨none, s.toList⟩

/-- A plain name is confined, also with a slash behind it, and so is the absolute path of a child of the database's
directory; a name of two parts, one of none, and another absolute path are not. -/
theorem confined_iff_sample : Confined libs ⟨home⟩ people (InChild home) ∧
    Confined libs ⟨home⟩ (named "people/") (InChild home) ∧ Confined libs ⟨home⟩ (named "/db/people") (InChild home) ∧
    ¬ Confined libs ⟨home⟩ (named "a/b") (InChild home) ∧ ¬ Confined libs ⟨home⟩ (named "") (InChild home) ∧
    ¬ Confined libs ⟨home⟩ (named "/etc/x") (InChild home) := by
  refine ⟨?_, ?_, ?_, fun h => ?_, fun h => ?_, fun h => ?_⟩
  · exact (confined_iff (s := people.toString) (by decide)).mpr (Or.inr ⟨people.toString, by decide⟩)
  · exact (confined_iff (s := "people/".toList) (by decide)).mpr (Or.inr ⟨"people".toList, by decide⟩)
  · exact (confined_iff (s := "/db/people".toList) (by decide)).mpr (Or.inr ⟨"people".toList, by decide⟩)
  · rcases (confined_iff (s := "a/b".toList) (by decide)).mp h with hnul | ⟨c, hc⟩
    · exact absurd hnul (by decide)
    · exact absurd (show 2 = 1 from congrArg List.length hc) (by decide)
  · rcases (confined_iff (s := "".toList) (by decide)).mp h with hnul | ⟨c, hc⟩
    · exact absurd hnul (by decide)
    · exact absurd (show 0 = 1 from congrArg List.length hc) (by decide)
  · rcases (confined_iff (s := "/etc/x".toList) (by decide)).mp h with hnul | ⟨c, hc⟩
    · exact absurd hnul (by decide)
    · exact absurd (show some "etc".toList = some "db".toList from congrArg List.head? hc) (by decide)

/-- So are the keys of a response; but a key can step back. -/
theorem names_stay_inside_iff_sample : Confined libs ⟨home⟩ people (InChild home) ∧
    (Cli.pinnedCommitment libs (Path.ofLoc home) "a/../people".toList).Touches (InChildDir home) ∧
    ¬ (Cli.pinnedCommitment libs (Path.ofLoc home) "../people".toList).Touches (InChildDir home) := by
  obtain ⟨hnames, hkeys⟩ := names_stay_inside_iff libs ⟨home⟩
  refine ⟨(hnames people.toString people (by decide)).mpr (Or.inr ⟨people.toString, by decide⟩), ?_, fun h => ?_⟩
  · exact (hkeys (Path.ofLoc home) "a/../people".toList).mpr (Or.inr ⟨"people".toList, by decide⟩)
  · rcases (hkeys (Path.ofLoc home) "../people".toList).mp h with hnul | ⟨c, hc⟩
    · exact absurd hnul (by decide)
    · exact absurd (show 1 = 2 from congrArg List.length hc) (by decide)

/-- Creating a table whose name is an absolute path, in an empty database. -/
def absoluteCreate : Outcome DbError Unit × World Fs (Loc Name) :=
  createTable libs ⟨home⟩ (named "/etc/x") ids 9 (openAt home ⟨FileTree.empty, [], []⟩).2

/-- **A table outside the database**: the name is accepted, and its table is created in the directory it names. -/
theorem absolute_name_escapes : TableRef.fromStr "/etc/x".toList = some (named "/etc/x") ∧
    absoluteCreate.1 = .ok () ∧ ∃ q, (absoluteCreate.2.state.lookup q).isSome = true ∧
      (openAt home ⟨FileTree.empty, [], []⟩).2.state.lookup q = none ∧ ¬ InChild home q := by
  refine ⟨by decide, by decide +kernel, ["etc".toList, "x".toList], by decide +kernel, by decide +kernel, ?_⟩
  rintro ⟨c, hq | ⟨f, hq⟩⟩
  all_goals exact absurd (show some "etc".toList = some "db".toList from congrArg List.head? hq) (by decide)

end Sample

end Db

end SxtEnterprise
