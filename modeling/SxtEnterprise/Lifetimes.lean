import SxtEnterprise.SetupCache
import SxtEnterprise.Snapshots

/-!
# Lives of the service

`cli.rs`, `serve`.  The process is started, makes or finds its data directory, resolves its setup from the cache file
there, and serves until it is killed; then it is started again.  The cache file lies where the tables' directories lie,
but no request changes it (`respects_keepsFile`) and resolving a setup changes nothing else (`leaves_resolveSetup`),
so both invariants go through a life: the cache holds the first powers of the ceremony (`Cached`), and the files hold
what was posted (`Ledger`).  `restarts_keep_everything` says what this means for a query after any number of lives.
-/

namespace SxtEnterprise

open NumberedNames Paths FaultyRun

/-! ### What a start changes -/

namespace Cli

variable {π : Type} {C : Curve π} {dir : Loc Name}

theorem leaves_downloadSetup {net : Net} {capacity : ℕ} :
    (downloadSetup C net ((Path.ofLoc dir).join cacheName) capacity).Leaves (FileTree.OnlySets dir cacheName) := by
  rw [downloadSetup]
  split
  · exact (Prog.Reader.ofOutcome _).still.leaves FileTree.OnlySets.refl
  · refine (Prog.Reader.mapErr (Prog.Reader.ofOutcome _)).still.bind_leaves FileTree.OnlySets.refl fun setup _ => ?_
    exact (Disk.leaves_write cache_loc).bind_still fun _ => (Prog.Reader.pure _).still

/-- **Resolving a setup changes nothing but the cache file.** -/
theorem leaves_resolveSetup {net : Net} {rows : ℕ} :
    (resolveSetup C net (Path.ofLoc dir) rows).Leaves (FileTree.OnlySets dir cacheName) := by
  rw [resolveSetup]
  refine Disk.reader_pathExists.still.bind_leaves FileTree.OnlySets.refl fun present _ => ?_
  split
  · have hfile : (Setup.fromFile C ((Path.ofLoc dir).join cacheName) (capacityFor rows)).Still :=
      (Disk.reader_read.bind fun bytes => Prog.Reader.ofOutcome _).still
    refine hfile.attempt.bind_leaves FileTree.OnlySets.refl fun cached _ => ?_
    split
    · exact (Prog.Reader.pure _).still.leaves FileTree.OnlySets.refl
    · exact leaves_downloadSetup
    · exact (Prog.Reader.fail _).still.leaves FileTree.OnlySets.refl
  · exact leaves_downloadSetup

theorem repeats_downloadSetup {net : Net} {cache : Path} {capacity : ℕ} :
    (downloadSetup C net cache capacity).Lockstep (· = ·) := by
  rw [downloadSetup]
  split
  · exact Prog.Lockstep.ofOutcome _
  · exact (Prog.Lockstep.ofOutcome _).mapErr.bind fun _ _ => Disk.repeats_write.bind fun _ _ => Prog.Lockstep.pure _

theorem repeats_resolveSetup {net : Net} {data : Path} {rows : ℕ} :
    (resolveSetup C net data rows).Lockstep (· = ·) := by
  rw [resolveSetup]
  refine Disk.repeats_pathExists.bind fun present _ => ?_
  split
  · have hfile : (Setup.fromFile C (data.join cacheName) (capacityFor rows)).Lockstep (· = ·) :=
      Disk.repeats_readCall.bind fun _ _ => Prog.Lockstep.ofOutcome _
    refine hfile.attempt.bind fun cached _ => ?_
    split
    · exact Prog.Lockstep.pure _
    · exact repeats_downloadSetup
    · exact Prog.Lockstep.fail _
  · exact repeats_downloadSetup

variable {net : Net} {rows : ℕ} {w w' : World Fs (Loc Name)}

/-- A database opened on a directory that is there changes nothing. -/
theorem openAt_present (hl : Lossless w.fates) (hd : w.state.lookup dir = some .dir) :
    (Db.openAt dir w).2.state = w.state ∧ ∀ db, (Db.openAt dir w).1 = .ok db → db = ⟨dir⟩ := by
  have hmade : ∀ k, w.state.mkdirs [] (Path.ofLoc dir).loc k = w.state := by
    intro k
    apply FileTree.mkdirs_present
    show w.state.lookup dir ≠ none
    rw [hd]
    simp
  rcases hmake : (Disk.createDirAll (Path.ofLoc dir) : Io DbError Unit) w with ⟨o, w₁⟩
  obtain ⟨k, hk, -⟩ := Disk.createDirAll_cases hl hmake
  constructor
  · rw [Db.openAt, Prog.bind_still_state _ (fun _ => (Prog.Reader.pure _).still), hmake, ← hmade k]
    exact hk
  · intro db hdb
    obtain ⟨_, w₂, -, hpure⟩ := Prog.bind_eq_ok.mp (Prod.ext hdb rfl : Db.openAt dir w = (.ok db, _))
    exact (Outcome.ok.inj (Prod.mk.inj hpure).1).symm

/-- What follows once the directory is there: a start's own step, and a database opened on that directory. -/
theorem opened_cases {o : Outcome CliError (Db × List π)} (hl : Lossless w.fates)
    (hdir : w.state.lookup dir = some .dir) (hrun : (do
      let setup ← resolveSetup C net (Path.ofLoc dir) rows
      let db ← Prog.mapErr .db (Db.openAt dir)
      pure (db, setup)) w = (o, w')) :
    ∃ outcome, StartStep C dir w.state ⟨rows, net, w.fates, outcome⟩ w'.state ∧
      ∀ db setup, o = .ok (db, setup) → db = ⟨dir⟩ ∧ outcome = .ok setup := by
  rcases hresolve : resolveSetup C net (Path.ofLoc dir) rows w with ⟨outcome, w₁⟩
  have hleaves : (resolveSetup C net (Path.ofLoc dir) rows).Leaves (FileTree.OnlySets dir cacheName) :=
    leaves_resolveSetup
  have hrepeats : (resolveSetup C net (Path.ofLoc dir) rows).Lockstep (· = ·) := repeats_resolveSetup
  have hset := hleaves w hl
  obtain ⟨-, -, -, hl₁⟩ := hrepeats w w rfl rfl hl
  rw [hresolve] at hset hl₁
  have hopen := openAt_present hl₁ ((hset.isDir_iff dir).mpr hdir)
  have hstart : StartStep C dir w.state ⟨rows, net, w.fates, outcome⟩ w₁.state :=
    hrepeats.run_log hl hresolve []
  refine ⟨outcome, ?_, fun db setup ho => ?_⟩
  · suffices hsame : w'.state = w₁.state from hsame ▸ hstart
    rw [Prog.andThen_run, hresolve] at hrun
    rcases outcome with setup | e | _ | _
    · rw [← congrArg (fun x => x.2.state) hrun]
      exact (Prog.bind_still_state _ (fun _ => (Prog.Reader.pure _).still) w₁).trans hopen.1
    all_goals rw [← congrArg (fun x => x.2.state) hrun]
  · subst ho
    obtain ⟨setup', w₁', hresolve', hrest⟩ := Prog.bind_eq_ok.mp hrun
    obtain ⟨rfl, rfl⟩ := Prod.mk.inj (hresolve.symm.trans hresolve')
    obtain ⟨db', w₂, hdb, hpure⟩ := Prog.bind_eq_ok.mp hrest
    obtain ⟨hpair, -⟩ := Prod.mk.inj hpure
    obtain ⟨rfl, rfl⟩ := Prod.mk.inj (Outcome.ok.inj hpair)
    exact ⟨hopen.2 _ (Outcome.mapErr_eq_ok.mp (congrArg Prod.fst hdb)), rfl⟩

/-- **What a start leaves**: directories on the way to its own and, once that is there, what resolving the setup
left. -/
theorem serve_cases {o : Outcome CliError (Db × List π)} (hl : Lossless w.fates)
    (hrun : serve C net dir rows w = (o, w')) :
    ∃ k, ((∀ s, o ≠ .ok s) ∧ w'.state = w.state.mkdirs [] dir k) ∨
      (w.state.mkdirs [] dir k).lookup dir = some .dir ∧ ∃ outcome,
        StartStep C dir (w.state.mkdirs [] dir k) ⟨rows, net, w.fates.tail, outcome⟩ w'.state ∧
        ∀ db setup, o = .ok (db, setup) → db = ⟨dir⟩ ∧ outcome = .ok setup := by
  rw [serve] at hrun
  rcases hmake : (Disk.createDirAll (Path.ofLoc dir) : Io CliError Unit) w with ⟨o₁, w₁⟩
  obtain ⟨k, hk, hok⟩ := Disk.createDirAll_cases hl hmake
  change w₁.state = w.state.mkdirs [] dir k at hk
  refine ⟨k, ?_⟩
  rcases o₁ with u | e | _ | _
  · right
    obtain ⟨-, hfree, -, hk', hf⟩ := hok rfl
    have hdir : (w.state.mkdirs [] dir k).lookup dir = some .dir := by
      rw [hk']
      show (w.state.mkdirs [] dir dir.length).lookup dir = _
      simpa using FileTree.lookup_mkdirs_path w.state [] dir dir.length w.state.lookup_root hfree le_rfl
        (List.prefix_refl dir)
    rw [Prog.bind_run_ok hmake] at hrun
    rw [← hk] at hdir ⊢
    rw [← hf]
    exact ⟨hdir, opened_cases (by rw [hf]; exact hl.tail) hdir hrun⟩
  all_goals
    left
    rw [Prog.andThen_run, hmake] at hrun
    obtain ⟨rfl, rfl⟩ := Prod.mk.inj hrun
    exact ⟨by simp [Prog.castStop], hk⟩

/-! ### What a start finds -/

/-- There is no cache file, or it is as `Cached` says. -/
def Prepared (C : Curve π) (ceremony : ℕ → π) (dir : Loc Name) (fs : Fs) : Prop :=
  fs.lookup (dir ++ [cacheName]) = none ∨ Cached C ceremony dir fs

variable {ceremony : ℕ → π} {fs : Fs}

theorem Prepared.mkdirs (h : Prepared C ceremony dir fs) (k : ℕ) :
    Prepared C ceremony dir (fs.mkdirs [] dir k) := by
  rcases h with hnone | h
  · left
    rcases FileTree.lookup_mkdirs fs [] dir k (dir ++ [cacheName]) with hsame | ⟨-, -, j, -, hj⟩
    · rw [hsame, hnone]
    · have hlen := congrArg List.length hj
      simp only [List.length_append, List.length_cons, List.length_nil, List.nil_append, List.length_take] at hlen
      omega
  · right
    rw [FileTree.mkdirs_present fs k (by rw [List.nil_append, h.isDir]; simp)]
    exact h

theorem Prepared.cached (h : Prepared C ceremony dir fs) (hd : fs.lookup dir = some .dir) :
    Cached C ceremony dir fs := h.elim (fun hnone => ⟨hd, Or.inl hnone⟩) id

/-- What is downloaded for a start is the ceremony's file, unless the download fails; and nothing fails but by a crash,
which is any number of system calls in. -/
structure Fair (C : Curve π) (ceremony : ℕ → π) (net : Net) (rows : ℕ) (fates : List Fate) : Prop where
  few : rows ≤ 2 ^ 28
  crashes : Disk.OnlyCrashes fates
  download : ∀ body, net (ptauUrlFor (capacityFor rows)) (Setup.downloadLimit (capacityFor rows)) = some body →
    C.readPtau body (capacityFor rows) = .ok (powers ceremony (capacityFor rows))

theorem Fair.lossless {fates : List Fate} (h : Fair C ceremony net rows fates) : Lossless fates := by
  intro lost hmem
  rcases h.crashes _ hmem with h | ⟨cut, h⟩
  all_goals simp at h

/-- **A start** hands out the first powers of the ceremony and leaves a cache file, or leaves the next start what it
found itself. -/
theorem Prepared.serve {point : Bytes → Option π} (hC : C.Lawful point) {fates : List Fate}
    (h : Prepared C ceremony dir fs) (hfair : Fair C ceremony net rows fates) {o : Outcome CliError (Db × List π)}
    (hrun : serve C net dir rows ⟨fs, fates, []⟩ = (o, w')) :
    Prepared C ceremony dir w'.state ∧ ∀ db setup, o = .ok (db, setup) → db = ⟨dir⟩ ∧
      setup = powers ceremony (capacityFor rows) ∧ Cached C ceremony dir w'.state ∧
        ∃ bytes, w'.state.lookup (dir ++ [cacheName]) = some (.file bytes) := by
  obtain ⟨k, ⟨hstop, hk⟩ | ⟨hdir, outcome, hstart, hok⟩⟩ := serve_cases (w := ⟨fs, fates, []⟩) hfair.lossless hrun
  · rw [hk]
    exact ⟨h.mkdirs k, fun db setup ho => absurd ho (hstop _)⟩
  · obtain ⟨j, hj, -⟩ := capacityFor_spec (hfair.few.trans (by decide))
    have hadm : Admissible C ceremony ⟨rows, net, fates.tail, outcome⟩ :=
      ⟨capacityFor_le hfair.few (by decide), hfair.crashes.tail, hfair.download⟩
    obtain ⟨hresolved, hcached⟩ := ((h.mkdirs k).cached hdir).step hC hadm hstart
    refine ⟨Or.inr hcached, fun db setup ho => ?_⟩
    obtain ⟨rfl, rfl⟩ := hok db setup ho
    obtain ⟨hsetup, hheld⟩ := hresolved.returned setup rfl
    refine ⟨rfl, hsetup, hcached, ?_⟩
    rcases hcached.cache with hnone | ⟨n, k, hfile⟩
    · -- a cache that holds a power is there
      rw [held, hnone] at hheld
      change capacityFor rows ≤ 0 at hheld
      rw [hj] at hheld
      exact absurd hheld (Nat.two_pow_pos j).not_ge
    · exact ⟨_, hfile⟩

/-! ### A setup made beforehand -/

section Sample

open SampleCurve

end Sample

end Cli

/-! ### What requests leave alone -/

/-- The file at `p` stays as it is. -/
def KeepsFile (p : Loc Name) (fs fs' : Fs) : Prop :=
  ∀ bytes, fs.lookup p = some (.file bytes) → fs'.lookup p = some (.file bytes)

namespace Db

variable {ρ κ σ : Type} {L : Libs ρ κ σ} {q : Loc Name} {c : Name}

theorem StoreLeft.keepsFile {fs fs' : Fs} {p : Loc Name} {n : ℕ} {batch : RecordBatch ρ} {made : Except Failure κ}
    {fates : List Fate} {o : Outcome DbError Unit} (h : StoreLeft L fs p n batch made fates o fs')
    (hc : ¬ IsTableFile c) : KeepsFile (q ++ [c]) fs fs' := by
  intro bytes hfile
  have hne : ∀ d, IsTableFile d → q ++ [c] ≠ p ++ [d] := by
    intro d hd heq
    have hcd : c = d := by simpa using (List.append_inj' heq rfl).2
    exact hc (hcd ▸ hd)
  rw [h.lookup_ne (hne _ (Or.inl (isParquet_batchName n))) (hne _ (Or.inr rfl)), hfile]

/-- **No write changes a file that is not a table's.** -/
theorem respects_keepsFile (hc : ¬ IsTableFile c) : Respects L (KeepsFile (q ++ [c])) where
  refl _ _ hfile := hfile
  trans h h' bytes hfile := h' bytes (h bytes hfile)
  mkdirs fs p k bytes hfile := by
    rcases FileTree.lookup_mkdirs fs [] p k (q ++ [c]) with hsame | ⟨hnone, -, -⟩
    · rw [hsame, hfile]
    · rw [hnone] at hfile
      simp at hfile
  store h := h.keepsFile hc

end Db

/-! ### Lives -/

/-- A life of the service's process: what it is started with and what befalls that, the requests that come and how they
are scheduled until the process is killed, and the requests that held the lock, in that order, each with its answer. -/
structure Lifetime (π ω ι : Type) where
  rows : ℕ
  net : Net
  fates : List Fate
  requests : ι → Api.Request ω × List Fate
  schedule : List ι
  done : List (Api.Request ω × Api.Reply ω)

namespace Lifetime

open Api

variable {π ρ κ σ ω ι : Type} [DecidableEq ι] (C : Curve π) (slice : List π → σ) (L : Libs ρ κ σ)
  (P : ProofSystem ρ κ σ) (K : Codecs ρ ω) (dir : Loc Name)

/-- A life that serves requests, none of which stops midway through a post, and one that comes to no more than a start.
The libraries are given `slice` of the powers. -/
inductive Lives (fs : Fs) (life : Lifetime π ω ι) : Fs → Prop
  | served {db setup w} (hserve : Cli.serve C life.net dir life.rows ⟨fs, life.fates, []⟩ = (.ok (db, setup), w))
      (hwhole : AllWhole L P K db (slice setup) w.state
        ((serviceRun L P K db (slice setup) life.requests w.state life.schedule).order.map life.requests))
      (hdone : life.done = (handleAll L P K db (slice setup) w.state
        ((serviceRun L P K db (slice setup) life.requests w.state life.schedule).order.map life.requests)).1) :
      Lives fs life (serviceRun L P K db (slice setup) life.requests w.state life.schedule).shared
  | stopped {o w} (hserve : Cli.serve C life.net dir life.rows ⟨fs, life.fates, []⟩ = (o, w))
      (hstop : ∀ s, o ≠ .ok s) (hdone : life.done = []) : Lives fs life w.state

variable {C slice L P K dir} {ceremony : ℕ → π} {point : Bytes → Option π} {fs fs₀ fs' : Fs}
  {done : List (Request ω × Reply ω)} {life : Lifetime π ω ι}

theorem not_isTableFile_cacheName : ¬ Db.IsTableFile Cli.cacheName := by
  rw [Db.IsTableFile]
  decide

/-- A start keeps the ledger. -/
theorem ledger_serve {db : Db} {net : Net} {rows : ℕ} {w w' : World Fs (Loc Name)} {o : Outcome CliError (Db × List π)}
    (hl : Lossless w.fates) (h : Ledger L K db done w.state) (hrun : Cli.serve C net dir rows w = (o, w')) :
    Ledger L K db done w'.state := by
  obtain ⟨cat, hinv, hledger⟩ := h
  refine ⟨cat, ?_, hledger⟩
  obtain ⟨k, hcases⟩ := Cli.serve_cases hl hrun
  have hmade : Db.Inv L (fun _ => True) (w.state.mkdirs [] dir k) cat := hinv.frame fun q _ => Db.Kept.mkdirs _ _ _ _
  rcases hcases with ⟨-, hk⟩ | ⟨-, outcome, ⟨w₁, hresolve, hstate⟩, -⟩
  · exact hk ▸ hmade
  · have hleaves : (Cli.resolveSetup C net (Path.ofLoc dir) rows).Leaves (FileTree.OnlySets dir Cli.cacheName) :=
      Cli.leaves_resolveSetup
    have hset := hleaves ⟨w.state.mkdirs [] dir k, w.fates.tail, []⟩ hl.tail
    rw [show Cli.resolveSetup C net (Path.ofLoc dir) rows ⟨w.state.mkdirs [] dir k, w.fates.tail, []⟩ = _ from hresolve,
      hstate] at hset
    exact hmade.beside hset not_isTableFile_cacheName

/-- A cache that is there is still there, the same, after any requests. -/
theorem cached_of_kept {bytes : Bytes} (h : Cli.Cached C ceremony dir fs)
    (hfile : fs.lookup (dir ++ [Cli.cacheName]) = some (.file bytes))
    (hkept : KeepsFile (dir ++ [Cli.cacheName]) fs fs') :
    Cli.Cached C ceremony dir fs' := by
  have hfile' := hkept bytes hfile
  refine ⟨fs'.lookup_parent (by rw [hfile']; simp), ?_⟩
  rw [hfile', ← hfile]
  exact h.cache

/-- **One life** keeps what was posted, posts more, and leaves the cache as the next start expects it. -/
theorem Lives.step (hL : L.Lawful) (hC : C.Lawful point) (hfair : Cli.Fair C ceremony life.net life.rows life.fates)
    (h : Ledger L K ⟨dir⟩ done fs) (hcache : Cli.Prepared C ceremony dir fs)
    (hlives : Lives C slice L P K dir fs life fs') :
    Ledger L K ⟨dir⟩ (done ++ life.done) fs' ∧ Cli.Prepared C ceremony dir fs' := by
  have hl := hfair.lossless
  cases hlives with
  | served hserve hwhole hdone =>
    obtain ⟨-, hok⟩ := hcache.serve hC hfair hserve
    obtain ⟨rfl, -, hcached, bytes, hfile⟩ := hok _ _ rfl
    have hledger := (ledger_serve (w := ⟨fs, life.fates, []⟩) hl h hserve).run hL hwhole
    rw [hdone, serviceRun_shared]
    refine ⟨hledger, Or.inr (cached_of_kept hcached hfile ?_)⟩
    exact leaves_handleAll (Db.respects_keepsFile not_isTableFile_cacheName) hwhole.lossless
  | stopped hserve hstop hdone =>
    rw [hdone, List.append_nil]
    exact ⟨ledger_serve (w := ⟨fs, life.fates, []⟩) hl h hserve, (hcache.serve hC hfair hserve).1⟩

/-- **And so do any number of lives.** -/
theorem Lives.run (hL : L.Lawful) (hC : C.Lawful point) (hnone : fs₀.lookup (dir ++ [Cli.cacheName]) = none)
    (hun : ∀ p, Db.Unlogged L fs₀ p) {hist : List (Lifetime π ω ι)}
    (hrun : Runs (Lives C slice L P K dir) fs₀ hist fs)
    (hfair : ∀ life ∈ hist, Cli.Fair C ceremony life.net life.rows life.fates) :
    Ledger L K ⟨dir⟩ (hist.flatMap Lifetime.done) fs ∧ Cli.Prepared C ceremony dir fs := by
  apply hrun.invariant (P := fun hist fs => Ledger L K ⟨dir⟩ (hist.flatMap Lifetime.done) fs ∧
    Cli.Prepared C ceremony dir fs) hfair ⟨Ledger.nil hun, Or.inl hnone⟩
  intro hist fs life fs' hfair h hlives
  rw [List.flatMap_append, List.flatMap_singleton]
  exact hlives.step hL hC hfair h.1 h.2

/-- **Restarts lose nothing.**  After any number of lives, each ended by a crash at any point of its start or between
its requests, a start that comes to serving has the first powers of the ceremony for its setup; and what a query is then
answered is about all that was posted in the lives before and, in this one, by the requests that held the lock before
it, and can be checked by the auditor if these are fewer than `10 ^ 6` posts to each table. -/
theorem restarts_keep_everything (hL : L.Lawful) (hP : P.Lawful L) (hK : K.Lawful P) (hC : C.Lawful point)
    (hnone : fs₀.lookup (dir ++ [Cli.cacheName]) = none) (hun : ∀ p, Db.Unlogged L fs₀ p)
    {hist : List (Lifetime π ω ι)} (hrun : Runs (Lives C slice L P K dir) fs₀ hist fs)
    (hfair : ∀ life ∈ hist, Cli.Fair C ceremony life.net life.rows life.fates) {net : Net} {rows : ℕ} {fates : List Fate}
    (hlast : Cli.Fair C ceremony net rows fates) {db : Db} {setup : List π} {w : World Fs (Loc Name)}
    (hserve : Cli.serve C net dir rows ⟨fs, fates, []⟩ = (.ok (db, setup), w)) :
    db = ⟨dir⟩ ∧ setup = Cli.powers ceremony (Cli.capacityFor rows) ∧
      ∀ (requests : ι → Request ω × List Fate) (schedule : List ι),
        AllWhole L P K db (slice setup) w.state
          ((serviceRun L P K db (slice setup) requests w.state schedule).order.map requests) →
        ∀ i sql response, (requests i).1 = .query sql →
          (serviceRun L P K db (slice setup) requests w.state schedule).phase i = .replied (.answered (.ok response)) →
          ∃ pre post done fs', (serviceRun L P K db (slice setup) requests w.state schedule).order = pre ++ i :: post ∧
            handleAll L P K db (slice setup) w.state (pre.map requests) = (done, fs') ∧
            IsSnapshot L P K db (slice setup) fs' (hist.flatMap Lifetime.done ++ done) sql response ∧
            ((∀ p, (posted db p (hist.flatMap Lifetime.done ++ done)).length < 10 ^ 6) →
              Auditable L P K db sql fs' response) := by
  obtain ⟨hledger, hcache⟩ := Lives.run hL hC hnone hun hrun hfair
  obtain ⟨rfl, hsetup, -⟩ := (hcache.serve hC hlast hserve).2 db setup rfl
  refine ⟨rfl, hsetup, fun requests schedule hwhole i sql response hq h => ?_⟩
  obtain ⟨pre, post, w', horder, hanswer⟩ := answered_held hq h
  obtain ⟨hbefore, hl, -⟩ := hwhole.before horder
  have hthen := (ledger_serve (w := ⟨fs, fates, []⟩) hlast.lossless hledger hserve).run hL hbefore
  exact ⟨pre, post, _, _, horder, rfl, hthen.isSnapshot hL hP hl hanswer,
    fun hfew => hthen.auditable hL hP hK hfew hl hanswer⟩

section Sample

open SampleLibs (ids home people)
open SampleService
open SampleCurve (curve curve_lawful)
open Cli (sampleNet powers serve)

/-- A start killed forty bytes into the cache. -/
def killedStart : Lifetime UInt8 UInt8 ℕ := ⟨3, sampleNet, [.ok, .ok, .kill 40], clients, clientSchedule, []⟩

/-- A start by hand: what it leaves. -/
def startLeft (net : Net) (fates : List Fate) (fs : Fs) : World Fs (Loc Name) :=
  (serve curve net home 3 ⟨fs, fates, []⟩).2

def firstStart : World Fs (Loc Name) :=
  startLeft sampleNet [] (startLeft sampleNet killedStart.fates FileTree.empty).state

/-- The life after it serves the sample's clients. -/
def firstLife : Lifetime UInt8 UInt8 ℕ :=
  ⟨3, sampleNet, [], clients, clientSchedule, (handleAll libs proofs codecs ⟨home⟩ (powers UInt8.ofNat 4).length
    firstStart.state ([0, 2, 3, 1].map clients)).1⟩

def firstRun : GlobalLock.State Fs (Reply UInt8) fun i => (clients i).1.Taken libs proofs :=
  serviceRun libs proofs codecs ⟨home⟩ (powers UInt8.ofNat 4).length clients firstStart.state clientSchedule

/-- The last start finds its setup in the cache. -/
def lastStart : World Fs (Loc Name) := startLeft (fun _ _ => none) [] firstRun.shared

def lastRequests : ℕ → Request UInt8 × List Fate := fun _ => (.query people.toString, [])

def lastRun : GlobalLock.State Fs (Reply UInt8) fun i => (lastRequests i).1.Taken libs proofs :=
  serviceRun libs proofs codecs ⟨home⟩ (powers UInt8.ofNat 4).length lastRequests lastStart.state [0, 0, 0]

theorem fair_sampleNet {fates : List Fate} (h : Disk.OnlyCrashes fates) :
    Cli.Fair curve UInt8.ofNat sampleNet 3 fates := by
  have hadm : Cli.Admissible curve UInt8.ofNat (Cli.sampleStart FileTree.empty fates) := Cli.sampleStart_admissible h
  exact ⟨by decide, h, by simpa only [Cli.sampleStart] using hadm.download⟩

/-- What the three lives come to: how each starts, who holds the lock, and what is answered and posted. -/
theorem lives_are :
    (serve curve sampleNet home 3 ⟨FileTree.empty, killedStart.fates, []⟩).1 = .killed ∧
    (serve curve sampleNet home 3 ⟨(startLeft sampleNet killedStart.fates FileTree.empty).state, [], []⟩).1 =
      .ok (⟨home⟩, powers UInt8.ofNat 4) ∧
    firstRun.order = [0, 2, 3, 1] ∧
    (∀ d ∈ firstLife.done, d.2.succeeded = true) ∧
    posted ⟨home⟩ ((⟨home⟩ : Db).tableDir people).loc firstLife.done = [[3], [1, 2]] ∧
    (serve curve (fun _ _ => none) home 3 ⟨firstRun.shared, [], []⟩).1 = .ok (⟨home⟩, powers UInt8.ofNat 4) ∧
    lastRun.order = [0] ∧
    (lastRun.phase 0).reply = some (.answered (.ok (answerFor ⟨ids, [3, 1, 2]⟩))) := by
  decide +kernel

theorem serve_last : serve curve (fun _ _ => none) home 3 ⟨firstRun.shared, [], []⟩
    = (.ok (⟨home⟩, powers UInt8.ofNat 4), lastStart) := by
  obtain ⟨-, -, -, -, -, hok, -⟩ := lives_are
  rw [lastStart, startLeft, ← hok]

theorem lives_killed : Lives curve List.length libs proofs codecs home FileTree.empty killedStart
    (startLeft sampleNet killedStart.fates FileTree.empty).state :=
  .stopped (o := .killed) (Prod.ext lives_are.1 rfl) (by simp) rfl

theorem lives_first : Lives curve List.length libs proofs codecs home
    (startLeft sampleNet killedStart.fates FileTree.empty).state firstLife firstRun.shared := by
  obtain ⟨-, hfirst, horder, hdone, -⟩ := lives_are
  have hserve : serve curve sampleNet home 3 ⟨(startLeft sampleNet killedStart.fates FileTree.empty).state, [], []⟩
      = (.ok (⟨home⟩, powers UInt8.ofNat 4), firstStart) := Prod.ext hfirst rfl
  refine .served hserve ?_ ?_
  · show AllWhole libs proofs codecs ⟨home⟩ _ firstStart.state (firstRun.order.map clients)
    rw [horder]
    refine allWhole_of_succeeded ?_ hdone
    intro q hq
    obtain ⟨i, -, rfl⟩ := List.mem_map.mp hq
    exact clients_calm i
  · show _ = (handleAll libs proofs codecs ⟨home⟩ _ firstStart.state (firstRun.order.map clients)).1
    rw [horder]
    rfl

theorem lastRun_is : lastRun.order = [0] ∧
    lastRun.phase 0 = .replied (.answered (.ok (answerFor ⟨ids, [3, 1, 2]⟩))) := by
  obtain ⟨-, -, -, -, -, -, horder, hreply⟩ := lives_are
  exact ⟨horder, GlobalLock.Phase.reply_eq_some.mp hreply⟩

/-- After a start that was killed and a life in which two clients posted, a query without a network is about both
posts, and can be checked. -/
theorem restarts_keep_everything_sample : (∃ e b k, Covers libs codecs [[3], [1, 2]] e b k) ∧
    Auditable libs proofs codecs ⟨home⟩ people.toString lastStart.state (answerFor ⟨ids, [3, 1, 2]⟩) := by
  have hrun : Runs (Lives curve List.length libs proofs codecs home) FileTree.empty [killedStart, firstLife]
      firstRun.shared := (Runs.nil.snoc lives_killed).snoc lives_first
  have hun : ∀ p, Db.Unlogged libs FileTree.empty p := fun p => Or.inl fun c bytes _ h => by
    rw [FileTree.lookup_empty (by simp)] at h
    simp at h
  have hkill : Disk.OnlyCrashes killedStart.fates := by
    intro f hf
    rw [killedStart] at hf
    simp only [List.mem_cons, List.not_mem_nil, or_false] at hf
    rcases hf with rfl | rfl | rfl
    · exact Or.inl rfl
    · exact Or.inl rfl
    · exact Or.inr ⟨40, rfl⟩
  have hcalm : Disk.OnlyCrashes [] := by simp [Disk.OnlyCrashes]
  have hfair : ∀ life ∈ [killedStart, firstLife], Cli.Fair curve UInt8.ofNat life.net life.rows life.fates := by
    intro life hlife
    simp only [List.mem_cons, List.not_mem_nil, or_false] at hlife
    rcases hlife with rfl | rfl
    · exact fair_sampleNet hkill
    · exact fair_sampleNet hcalm
  obtain ⟨-, -, hsnapshot⟩ := restarts_keep_everything libs_lawful proofs_lawful codecs_lawful curve_lawful
    (FileTree.lookup_empty (by simp)) hun hrun hfair (⟨by decide, hcalm, by simp⟩ : Cli.Fair curve UInt8.ofNat
      (fun _ _ => none) 3 []) serve_last
  have hwhole : AllWhole libs proofs codecs ⟨home⟩ (powers UInt8.ofNat 4).length lastStart.state
      (lastRun.order.map lastRequests) := by
    rw [lastRun_is.1]
    exact ⟨⟨Lossless.nil, fun _ _ h => by simp [lastRequests] at h⟩, trivial⟩
  obtain ⟨pre, post, done, fs', horder, hdone, ⟨statement, tableRefs, _, _, -, -, -, -, -, hparse, hrefs, -, hcovers, -⟩,
    haudit⟩ := hsnapshot lastRequests [0, 0, 0] hwhole 0 people.toString _ rfl lastRun_is.2
  obtain rfl : pre = [] := by
    change lastRun.order = _ at horder
    rw [lastRun_is.1] at horder
    rcases pre with _ | ⟨a, pre⟩
    · rfl
    · simp at horder
  obtain ⟨rfl, rfl⟩ := Prod.mk.inj hdone
  have hstatement : [people] = [statement] := Option.some.inj hparse
  obtain rfl : people = statement := (List.cons.inj hstatement).1
  obtain rfl : [people] = tableRefs := Option.some.inj hrefs
  obtain ⟨b, k, e, -, hcovers⟩ := hcovers people (List.mem_singleton.mpr rfl)
  have hposted : posted ⟨home⟩ ((⟨home⟩ : Db).tableDir people).loc
      ([killedStart, firstLife].flatMap Lifetime.done ++ []) = [[3], [1, 2]] := by
    rw [List.append_nil]
    exact lives_are.2.2.2.2.1
  refine ⟨⟨e, b, k, hposted ▸ hcovers⟩, haudit fun p => ?_⟩
  rw [List.append_nil]
  apply lt_of_le_of_lt (List.length_filterMap_le _ _)
  exact (by decide : 4 < 10 ^ 6)

end Sample

end Lifetime

end SxtEnterprise
