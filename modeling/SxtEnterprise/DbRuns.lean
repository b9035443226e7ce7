import SxtEnterprise.DbInvariant
import SxtEnterprise.Runs

/-!
# Runs of database calls

An event is a call, what befell its system calls, and how it ended.  In a run over references without
slashes, every table's directory lies directly in the database's, so that no directory is ever made
inside a table: the layout of the tree (`Layout`) is the invariant of the region the database owns,
with every table tidy.  `Layout.createTable`, `Layout.insert` and `Layout.read` are its step lemmas.
-/

namespace SxtEnterprise

open NumberedNames Paths FaultyRun

namespace TableRef

/-- A reference parsed from a string without a slash. -/
def Flat (r : TableRef) : Prop := r.Parsed ∧ '/' ∉ r.toString

instance (r : TableRef) : Decidable r.Flat := inferInstanceAs (Decidable (_ ∧ _))

theorem Flat.plain_or {r : TableRef} (h : r.Flat) :
    Plain r.toString ∨ r.toString = [] ∨ r.toString = ['.'] := by
  by_cases h0 : r.toString = []
  · exact Or.inr (Or.inl h0)
  by_cases h1 : r.toString = ['.']
  · exact Or.inr (Or.inr h1)
  refine Or.inl ⟨h0, h1, ?_, h.2⟩
  intro h2
  have hmem := dotdot_notMem h.1
  rw [h2] at hmem
  exact hmem (by decide)

end TableRef

namespace Db

/-- The calls of the database. -/
inductive Call (ρ σ : Type) where
  | openAt
  | createTable (tableRef : TableRef) (schema : Schema) (setup : σ)
  | insert (tableRef : TableRef) (batch : RecordBatch ρ) (setup : σ)
  | data (tableRefs : List TableRef)
  | schema (tableRef : TableRef)
  | commitments (tableRefs : List TableRef)
  | tables

/-- A call, what befell it, and how it ended. -/
structure Event (ρ σ : Type) where
  call : Call ρ σ
  fates : List Fate
  outcome : Outcome DbError Unit

variable {ρ κ σ : Type} (L : Libs ρ κ σ) (db : Db)

/-- What a call runs. -/
def Call.prog : Call ρ σ → Io DbError Unit
  | .openAt => (fun _ => ()) <$> Db.openAt db.dir
  | .createTable r s setup => Db.createTable L db r s setup
  | .insert r batch setup => Db.insert L db r batch setup
  | .data rs => (fun _ => ()) <$> Db.data L db rs
  | .schema r => (fun _ => ()) <$> Db.schema L db r
  | .commitments rs => (fun _ => ()) <$> Db.commitments L db rs
  | .tables => (fun _ => ()) <$> Db.tables db

/-- The references a call is made with. -/
def Call.refs : Call ρ σ → List TableRef
  | .openAt | .tables => []
  | .createTable r _ _ | .insert r _ _ | .schema r => [r]
  | .data rs | .commitments rs => rs

/-- One call on the file system. -/
def Step (fs : Fs) (e : Event ρ σ) (fs' : Fs) : Prop :=
  Lossless e.fates ∧ ∃ w', e.call.prog L db ⟨fs, e.fates, []⟩ = (e.outcome, w') ∧ w'.state = fs'

/-- The calls one after the other: what happened, and the file system left behind. -/
def play (fs : Fs) : List (Call ρ σ × List Fate) → List (Event ρ σ) × Fs
  | [] => ([], fs)
  | (call, fates) :: calls =>
    let done := call.prog L db ⟨fs, fates, []⟩
    let rest := play done.2.state calls
    (⟨call, fates, done.1⟩ :: rest.1, rest.2)

theorem runs_play {calls : List (Call ρ σ × List Fate)} (hl : ∀ c ∈ calls, Lossless c.2) (fs : Fs) :
    Runs (Step L db) fs (play L db fs calls).1 (play L db fs calls).2 := by
  induction calls generalizing fs with
  | nil => exact .nil
  | cons c calls ih =>
    exact Runs.cons ⟨hl c (by simp), _, rfl, rfl⟩ (ih (fun c hc => hl c (by simp [hc])) _)

/-! ### Where flat references lead -/

/-- The database's directory, and what lies directly in it. -/
def Near (dir p : Loc Name) : Prop := p = dir ∨ ∃ c, p = dir ++ [c]

theorem tableDir_loc_flat {r : TableRef} (h : r.Flat) :
    (db.tableDir r).loc = db.dir ∨ (Plain r.toString ∧ (db.tableDir r).loc = db.dir ++ [r.toString]) := by
  rcases h.plain_or with hp | h0 | h1
  · exact Or.inr ⟨hp, tableDir_loc_plain db hp⟩
  · left
    rw [tableDir, h0]
    rfl
  · left
    rw [tableDir, h1]
    rfl

theorem near_tableDir {r : TableRef} (h : r.Flat) : Near db.dir (db.tableDir r).loc := by
  rcases tableDir_loc_flat db h with h | ⟨-, h⟩
  · exact Or.inl h
  · exact Or.inr ⟨_, h⟩

/-! ### Which directories a call makes -/

section Dirs

variable {L db} {w w' : World Fs (Loc Name)} {o : Outcome DbError Unit} {r : TableRef} {setup : σ}

theorem StoreLeft.isDir_iff {fs fs' : Fs} {p : Loc Name} {n : ℕ} {batch : RecordBatch ρ}
    {made : Except Failure κ} {fates : List Fate} (h : StoreLeft L fs p n batch made fates o fs')
    (q : Loc Name) : fs'.lookup q = some .dir ↔ fs.lookup q = some .dir := by
  cases h with
  | noParquet _ _ hset => exact hset.isDir_iff q
  | partBatch _ _ _ hset => exact hset.isDir_iff q
  | batchOnly _ _ _ hset _ => exact hset.isDir_iff q
  | partCommit _ _ _ hset _ _ _ _ hset' => exact (hset'.isDir_iff q).trans (hset.isDir_iff q)
  | all _ hset _ _ hset' => exact (hset'.isDir_iff q).trans (hset.isDir_iff q)

theorem insert_isDir_iff {batch : RecordBatch ρ} (hr : r.Parsed) (hl : Lossless w.fates)
    (h : insert L db r batch setup w = (o, w')) (q : Loc Name) :
    w'.state.lookup q = some .dir ↔ w.state.lookup q = some .dir := by
  rcases insert_cases hr hl h with ⟨hsame, -⟩ | ⟨n, k, -, -, -, hleft⟩
  · rw [hsame]
  · exact hleft.isDir_iff q

theorem mkdirs_isDir {fs : Fs} {p : Loc Name} {k : ℕ} {q : Loc Name}
    (h : (fs.mkdirs [] p k).lookup q = some .dir) : fs.lookup q = some .dir ∨ q <+: p := by
  rcases FileTree.lookup_mkdirs fs [] p k q with hsame | ⟨-, -, j, -, rfl⟩
  · exact Or.inl (hsame ▸ h)
  · exact Or.inr (by simpa using List.take_prefix j p)

theorem createTable_isDir {schema : Schema} (hl : Lossless w.fates)
    (h : createTable L db r schema setup w = (o, w')) {q : Loc Name}
    (hq : w'.state.lookup q = some .dir) :
    w.state.lookup q = some .dir ∨ q <+: (db.tableDir r).loc := by
  rcases createTable_cases hl h with ⟨-, -, hsame⟩ | ⟨-, ⟨-, k, hk⟩ | ⟨fs₁, rfl, -, -, hleft⟩⟩
  · exact Or.inl (hsame ▸ hq)
  · rw [hk] at hq
    exact mkdirs_isDir hq
  · rw [hleft.isDir_iff] at hq
    exact mkdirs_isDir hq

end Dirs

/-! ### The layout of the tree -/

/-- The database's directory is there and no table itself, the logs are those `cat` lists, and every
table is tidy. -/
structure Layout (fs : Fs) (cat : Loc Name → Option (TableLog ρ)) : Prop where
  root : fs.lookup db.dir = some .dir
  top : cat db.dir = none
  named : ∀ c e, cat (db.dir ++ [c]) = some e → c.contains '\x00' = false
  inv : Inv L (Near db.dir) fs cat
  tidy : ∀ c, Tidy fs (db.dir ++ [c])

section Layout

variable {L db} {fs fs' : Fs} {cat : Loc Name → Option (TableLog ρ)} {w w' : World Fs (Loc Name)}
  {o : Outcome DbError Unit} {r : TableRef} {setup : σ}

/-- A directory with nothing in it is a database without tables. -/
theorem Layout.fresh (hd : fs.lookup db.dir = some .dir) (hnone : ∀ c, fs.lookup (db.dir ++ [c]) = none) :
    Layout L db fs fun _ => none := by
  have hbelow : ∀ c d, fs.lookup (db.dir ++ [c] ++ [d]) = none := by
    intro c d
    by_contra hne
    have := fs.lookup_parent hne
    rw [hnone] at this
    simp at this
  refine ⟨hd, rfl, fun c e h => by simp at h,
    ⟨fun p e _ h => by simp at h, fun p hp _ => Or.inl fun c bytes _ hb => ?_⟩, fun c d _ h => ?_⟩
  · rcases hp with rfl | ⟨c', rfl⟩
    · rw [hnone] at hb; simp at hb
    · rw [hbelow] at hb; simp at hb
  · rw [hbelow] at h; simp at h

theorem Layout.lookup_ne_none (h : Layout L db fs cat) : fs.lookup db.dir ≠ none := by
  rw [h.root]; simp

/-- Tables have plain names. -/
theorem Layout.plain_of_logged (h : Layout L db fs cat) (hr : r.Flat) {e : TableLog ρ}
    (hc : cat (db.tableDir r).loc = some e) : Plain r.toString := by
  rcases tableDir_loc_flat db hr with hloc | ⟨hp, -⟩
  · rw [hloc, h.top] at hc
    simp at hc
  · exact hp

theorem hasNul_tableDir_plain (db : Db) (hp : Plain r.toString) :
    (db.tableDir r).hasNul = r.toString.contains '\x00' := by
  rw [tableDir_plain db hp, Path.hasNul, List.any_cons, List.any_nil, Bool.or_false]

theorem Layout.noNul (h : Layout L db fs cat) (hr : r.Flat) {e : TableLog ρ}
    (hc : cat (db.tableDir r).loc = some e) : (db.tableDir r).hasNul = false := by
  have hp := h.plain_of_logged hr hc
  rw [tableDir_loc_plain db hp] at hc
  rw [hasNul_tableDir_plain db hp, h.named _ e hc]

theorem dir_ne_tableDir (hp : Plain r.toString) : db.dir ≠ (db.tableDir r).loc := by
  rw [tableDir_loc_plain db hp]
  simp

theorem Layout.createTable (hL : L.Lawful) (h : Layout L db w.state cat) (hr : r.Flat)
    (hl : Lossless w.fates) {schema : Schema} (hrun : createTable L db r schema setup w = (o, w')) :
    (o ≠ .ok () ∧ Layout L db w'.state cat) ∨
      (cat (db.tableDir r).loc = none ∧ Plain r.toString ∧
        Layout L db w'.state (Function.update cat (db.tableDir r).loc (some (TableLog.new schema)))) := by
  have htidy : ∀ c, Tidy w'.state (db.dir ++ [c]) := by
    intro c d hd hdir
    rcases createTable_isDir hl hrun hdir with hdir | hpre
    · exact h.tidy c d hd hdir
    · have hlen := hpre.length_le
      rcases tableDir_loc_flat db hr with hloc | ⟨-, hloc⟩ <;>
      · rw [hloc] at hlen
        simp only [List.length_append, List.length_cons, List.length_nil] at hlen
        omega
  have hroot : w'.state.lookup db.dir = some .dir := by
    rcases createTable_cases hl hrun with ⟨-, -, hsame⟩ | ⟨-, ⟨-, k, hk⟩ | ⟨fs₁, rfl, -, -, hleft⟩⟩
    · rw [hsame]; exact h.root
    · rw [hk]; exact (Kept.mkdirs _ _ _ _).isDir h.root
    · rw [hleft.isDir_iff]; exact (Kept.mkdirs _ _ _ _).isDir h.root
  rcases h.inv.createTable hL hr.1 hl hrun with ⟨ho, hinv⟩ | ⟨hmiss, hnul, hinv⟩
  · exact Or.inl ⟨ho, hroot, h.top, h.named, hinv, htidy⟩
  · have hp : Plain r.toString := by
      rcases tableDir_loc_flat db hr with hloc | ⟨hp, -⟩
      · rw [hloc] at hmiss
        exact absurd hmiss h.lookup_ne_none
      · exact hp
    refine Or.inr ⟨h.inv.none_of_missing (near_tableDir db hr) hmiss, hp, hroot, ?_, ?_, hinv, htidy⟩
    · rw [Function.update_of_ne (dir_ne_tableDir hp), h.top]
    · intro c e hc
      by_cases hcr : c = r.toString
      · rw [hcr, ← hasNul_tableDir_plain db hp]
        exact hnul
      · rw [tableDir_loc_plain db hp, Function.update_of_ne (by simpa using hcr)] at hc
        exact h.named c e hc

theorem Layout.insert (hL : L.Lawful) (h : Layout L db w.state cat) (hr : r.Flat)
    (hl : Lossless w.fates) {batch : RecordBatch ρ} (hrun : insert L db r batch setup w = (.ok (), w')) :
    ∃ e, cat (db.tableDir r).loc = some e ∧ batch.schema = e.schema ∧
      Layout L db w'.state (Function.update cat (db.tableDir r).loc (some (e.push batch))) := by
  obtain ⟨e, hc, hs, hinv⟩ := h.inv.insert hL hr.1 hl (near_tableDir db hr) hrun
  have hdirs := insert_isDir_iff hr.1 hl hrun
  have hp := h.plain_of_logged hr hc
  refine ⟨e, hc, hs, (hdirs _).mpr h.root, ?_, ?_, hinv,
    fun c d hd hdir => h.tidy c d hd ((hdirs _).mp hdir)⟩
  · rw [Function.update_of_ne (dir_ne_tableDir hp), h.top]
  · intro c e' hc'
    by_cases hcr : c = r.toString
    · subst hcr
      exact h.named _ e (by rw [← tableDir_loc_plain db hp, hc])
    · rw [tableDir_loc_plain db hp, Function.update_of_ne (by simpa using hcr)] at hc'
      exact h.named c e' hc'

/-- The calls that only read change nothing, and opening makes at most directories on the way to the
database's. -/
theorem Step.mkdirs_of_read {e : Event ρ σ} (hstep : Step L db fs e fs')
    (hcall : (∀ r s setup, e.call ≠ .createTable r s setup) ∧ ∀ r b setup, e.call ≠ .insert r b setup) :
    ∃ k, fs' = fs.mkdirs [] db.dir k := by
  obtain ⟨hl, w', hrun, rfl⟩ := hstep
  have hmap : ∀ {α : Type} {m : Io DbError α}, m.Reader →
      ((fun _ => ()) <$> m) ⟨fs, e.fates, []⟩ = (e.outcome, w') → ∃ k, w'.state = fs.mkdirs [] db.dir k := by
    intro α m hm h
    have hreader : ((fun _ => ()) <$> m : Io DbError Unit).Reader := by
      rw [map_eq_pure_bind]
      exact hm.bind fun _ => Prog.Reader.pure _
    have hsame := hreader.state ⟨fs, e.fates, []⟩
    rw [h] at hsame
    exact ⟨0, by rw [FileTree.mkdirs_zero]; exact hsame⟩
  rcases hc : e.call with _ | ⟨r, s, setup⟩ | ⟨r, b, setup⟩ | rs | r | rs | _ <;> rw [hc] at hrun
  · change ((fun _ => ()) <$> Db.openAt db.dir) _ = _ at hrun
    rw [map_eq_pure_bind, Db.openAt, bind_assoc] at hrun
    rcases hm : (Disk.createDirAll (Path.ofLoc db.dir) : Io DbError Unit) ⟨fs, e.fates, []⟩ with ⟨o, w₁⟩
    obtain ⟨k, hk, -⟩ := Disk.createDirAll_cases hl hm
    refine ⟨k, ?_⟩
    by_cases ho : o = .ok ()
    · subst ho
      rw [Prog.bind_run_ok hm] at hrun
      change (Outcome.ok (), w₁) = _ at hrun
      rw [Prod.mk.injEq] at hrun
      rw [← hrun.2, hk]
      rfl
    · obtain ⟨h1, -⟩ := Prog.bind_run_stop (m := Disk.createDirAll (Path.ofLoc db.dir))
        (f := fun _ => (pure (⟨db.dir⟩ : Db) >>= fun _ => pure () : Io DbError Unit))
        (w := ⟨fs, e.fates, []⟩) (by rw [hm]; rintro ⟨⟩; exact ho)
      rw [hm] at h1
      rw [hrun] at h1
      rw [show w' = w₁ from h1, hk]
      rfl
  · exact absurd hc (hcall.1 _ _ _)
  · exact absurd hc (hcall.2 _ _ _)
  · exact hmap (reader_data L rs) hrun
  · exact hmap (reader_schema L r) hrun
  · exact hmap (reader_commitments L rs) hrun
  · exact hmap (reader_tables) hrun

/-- On a database that is there, they change nothing at all. -/
theorem Step.same_of_read {e : Event ρ σ} (hstep : Step L db fs e fs') (hd : fs.lookup db.dir ≠ none)
    (hcall : (∀ r s setup, e.call ≠ .createTable r s setup) ∧ ∀ r b setup, e.call ≠ .insert r b setup) :
    fs' = fs := by
  obtain ⟨k, rfl⟩ := hstep.mkdirs_of_read hcall
  exact FileTree.mkdirs_present fs k (by simpa using hd)

end Layout

end Db

end SxtEnterprise
