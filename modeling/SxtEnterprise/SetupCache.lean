import SxtEnterprise.Capacity
import SxtEnterprise.Runs

/-!
# The setup cache

The cache file is rewritten in place, so a crash leaves any number of its first bytes.  `Cached` is the
invariant all histories of starts keep: there is no cache file, or it holds the first bytes of the compressed
ceremony.  Powers read from such a file are the ceremony's, and there are as many as whole points fit in it,
so the only thing a cache that was cut off can do is to be downloaded again.
-/

namespace SxtEnterprise

open NumberedNames Paths FaultyRun

namespace Disk

variable {ε : Type} [FromIo ε]

/-- No system call fails; the process can only be killed in one. -/
def OnlyCrashes (fates : List Fate) : Prop := ∀ f ∈ fates, f = .ok ∨ ∃ cut, f = .kill cut

theorem OnlyCrashes.tail {fates : List Fate} (h : OnlyCrashes fates) : OnlyCrashes fates.tail :=
  fun f hf => h f (List.mem_of_mem_tail hf)

/-- What the next call meets. -/
theorem OnlyCrashes.head {fates : List Fate} (h : OnlyCrashes fates) :
    fates.headD .ok = .ok ∨ ∃ cut, fates.headD .ok = .kill cut ∧ Fate.kill cut ∈ fates := by
  cases fates with
  | nil => exact Or.inl rfl
  | cons f fates =>
    rcases h f (by simp) with hf | ⟨cut, hf⟩
    · exact Or.inl hf
    · exact Or.inr ⟨cut, hf, by simp [hf]⟩

variable {w : World Fs (Loc Name)} {p : Path} {q : Loc Name} {c : Name} {b : Bytes}

theorem create_crashes (hp : p.loc = q ++ [c]) (hnul : p.hasNul = false) (hw : OnlyCrashes w.fates)
    (hd : w.state.lookup q = some .dir) (hc : w.state.lookup (q ++ [c]) ≠ some .dir) :
    (∃ w', (create p : Io ε Unit) w = (.ok (), w') ∧ w'.fates = w.fates.tail ∧ w.state.Sets q c [] w'.state) ∨
    ∃ w' cut, (create p : Io ε Unit) w = (.killed, w') ∧ Fate.kill cut ∈ w.fates ∧ w'.state = w.state := by
  rcases hw.head with hok | ⟨cut, hkill, hmem⟩
  · left
    obtain ⟨fs', hset⟩ := FileTree.setFile_isSome (b := ([] : Bytes)) hd hc
    rw [create, guardNul, hnul, if_neg (by simp),
      Prog.sysCall_run (a := ()) hok (by rw [hp, FileTree.write_concat, hset])]
    refine ⟨_, rfl, rfl, ?_⟩
    simp only [hp, FileTree.write_concat, hset]
    exact FileTree.setFile_spec hset
  · right
    rw [create, guardNul, hnul, if_neg (by simp), Prog.sysCall, hkill]
    exact ⟨_, cut, rfl, hmem, rfl⟩

theorem writeAll_crashes (hp : p.loc = q ++ [c]) (hnul : p.hasNul = false) (hw : OnlyCrashes w.fates)
    (hd : w.state.lookup q = some .dir) (hc : w.state.lookup (q ++ [c]) ≠ some .dir) :
    (∃ w', (writeAll p b : Io ε Unit) w = (.ok (), w') ∧ w.state.Sets q c b w'.state) ∨
    ∃ w' cut, (writeAll p b : Io ε Unit) w = (.killed, w') ∧ Fate.kill cut ∈ w.fates ∧
      w.state.Sets q c (b.take cut) w'.state := by
  rcases hw.head with hok | ⟨cut, hkill, hmem⟩
  · left
    obtain ⟨fs', hset⟩ := FileTree.setFile_isSome (b := b) hd hc
    rw [writeAll, guardNul, hnul, if_neg (by simp),
      Prog.sysCall_run (a := ()) hok (by rw [hp, FileTree.write_concat, hset])]
    refine ⟨_, rfl, ?_⟩
    simp only [hp, FileTree.write_concat, hset]
    exact FileTree.setFile_spec hset
  · right
    obtain ⟨fs', hset⟩ := FileTree.setFile_isSome (b := b.take cut) hd hc
    rw [writeAll, guardNul, hnul, if_neg (by simp), Prog.sysCall, hkill]
    refine ⟨_, cut, rfl, hmem, ?_⟩
    simp only [hp, FileTree.write_concat, hset, Option.getD_some]
    exact FileTree.setFile_spec hset

/-- **A write that can only be killed** leaves all of the b, or the file as it was, or some of them. -/
theorem write_crashes (hp : p.loc = q ++ [c]) (hnul : p.hasNul = false) (hw : OnlyCrashes w.fates)
    (hd : w.state.lookup q = some .dir) (hc : w.state.lookup (q ++ [c]) ≠ some .dir) :
    (∃ w', (write p b : Io ε Unit) w = (.ok (), w') ∧
      w'.state.lookup q = some .dir ∧ w'.state.lookup (q ++ [c]) = some (.file b)) ∨
    ∃ w' cut, (write p b : Io ε Unit) w = (.killed, w') ∧ Fate.kill cut ∈ w.fates ∧
      (w'.state = w.state ∨ ∃ cut', w'.state.lookup q = some .dir ∧
        w'.state.lookup (q ++ [c]) = some (.file (b.take cut'))) := by
  have hne : q ≠ q ++ [c] := by simp
  rw [write]
  rcases create_crashes (ε := ε) hp hnul hw hd hc with ⟨w₁, hrun, hf, hset⟩ | ⟨w₁, cut, hrun, hmem, hsame⟩
  · have hd₁ : w₁.state.lookup q = some .dir := by rw [hset.lookup, if_neg hne, hd]
    have hc₁ : w₁.state.lookup (q ++ [c]) ≠ some .dir := by rw [hset.lookup]; simp
    rw [Prog.bind_run_ok hrun]
    rcases writeAll_crashes (ε := ε) (b := b) hp hnul (by rw [hf]; exact hw.tail) hd₁ hc₁ with
      ⟨w₂, hrun₂, hset₂⟩ | ⟨w₂, cut, hrun₂, hmem, hset₂⟩
    · exact Or.inl ⟨w₂, hrun₂, by rw [hset₂.lookup, if_neg hne, hd₁], by rw [hset₂.lookup, if_pos rfl]⟩
    · refine Or.inr ⟨w₂, cut, hrun₂, List.mem_of_mem_tail (hf ▸ hmem), Or.inr ⟨cut, ?_, ?_⟩⟩
      · rw [hset₂.lookup, if_neg hne, hd₁]
      · rw [hset₂.lookup, if_pos rfl]
  · refine Or.inr ⟨w₁, cut, ?_, hmem, Or.inl hsame⟩
    rw [Prog.andThen_run, hrun]
    rfl

/-- A read that can only be killed. -/
theorem read_crashes (hnul : p.hasNul = false) (hw : OnlyCrashes w.fates)
    (hb : node w.state p = some (.file b)) :
    (∃ w', (read p : Io ε Bytes) w = (.ok b, w') ∧ w'.fates = w.fates.tail ∧ w'.state = w.state) ∨
    ∃ w' cut, (read p : Io ε Bytes) w = (.killed, w') ∧ Fate.kill cut ∈ w.fates ∧ w'.state = w.state := by
  rcases hw.head with hok | ⟨cut, hkill, hmem⟩
  · left
    rw [read, readCall, guardNul, hnul, if_neg (by simp), Prog.sysCall_run (a := b) hok (by rw [hb])]
    exact ⟨_, rfl, rfl, rfl⟩
  · right
    rw [read, readCall, guardNul, hnul, if_neg (by simp), Prog.sysCall, hkill]
    exact ⟨_, cut, rfl, hmem, rfl⟩

end Disk

namespace Cli

open Setup (pointSize toCompressed fromCompressed)

/-- The first `n` powers of the ceremony. -/
def powers {π : Type} (ceremony : ℕ → π) (n : ℕ) : List π := (List.range n).map ceremony

/-- A start of the service: how many rows it is to provide for, what a download gives, what befalls its system
calls, and how resolving the setup ended. -/
structure Start (π : Type) where
  rows : ℕ
  net : Net
  fates : List Fate
  outcome : Outcome CliError (List π)

variable {π : Type} (C : Curve π) (ceremony : ℕ → π) (dir : Loc Name)

/-- Resolving the setup in `dir`. -/
def StartStep (fs : Fs) (e : Start π) (fs' : Fs) : Prop :=
  ∃ w', resolveSetup C e.net (Path.ofLoc dir) e.rows ⟨fs, e.fates, []⟩ = (e.outcome, w') ∧ w'.state = fs'

/-- The ceremony has that many powers, nothing fails but by a crash, and what is downloaded is the ceremony's
file, unless the download fails. -/
structure Admissible (e : Start π) : Prop where
  capacity : capacityFor e.rows ≤ 2 ^ 28
  crashes : Disk.OnlyCrashes e.fates
  download : ∀ body,
    e.net (ptauUrlFor (capacityFor e.rows)) (Setup.downloadLimit (capacityFor e.rows)) = some body →
      C.readPtau body (capacityFor e.rows) = .ok (powers ceremony (capacityFor e.rows))

/-- How many powers the cache file holds. -/
def held (fs : Fs) : ℕ :=
  match fs.lookup (dir ++ [cacheName]) with
  | some (.file bytes) => bytes.length / pointSize
  | _ => 0

/-- There is no cache file, or it holds the first bytes of the compressed ceremony. -/
structure Cached (fs : Fs) : Prop where
  isDir : fs.lookup dir = some .dir
  cache : fs.lookup (dir ++ [cacheName]) = none ∨
    ∃ n k, fs.lookup (dir ++ [cacheName]) = some (.file ((toCompressed C (powers ceremony n)).take k))

/-- What a start does: it returns the first powers of the ceremony, having them in the cache; it fails only if
the download does, and never for a cache that is there; and without a crash the cache does not shrink. -/
structure Resolved (fs : Fs) (e : Start π) (fs' : Fs) : Prop where
  returned : ∀ s, e.outcome = .ok s →
    s = powers ceremony (capacityFor e.rows) ∧ capacityFor e.rows ≤ held dir fs'
  failed : ∀ d, e.outcome = .err d → d = .setup .download
  panicked : e.outcome = .panic → fs.lookup (dir ++ [cacheName]) = none
  grown : (∀ f ∈ e.fates, f = .ok) → held dir fs ≤ held dir fs'

section Cache

variable {C ceremony dir} {point : Bytes → Option π} {fs fs' : Fs} {e : Start π} {w w' : World Fs (Loc Name)}
  {c : ℕ}

@[simp] theorem length_powers (n : ℕ) : (powers ceremony n).length = n := by simp [powers]

theorem take_powers {n k : ℕ} (h : n ≤ k) : (powers ceremony k).take n = powers ceremony n := by
  rw [powers, ← List.map_take, List.take_range, min_eq_left h, powers]

/-- **Whatever was cut off, the powers that are left are the ceremony's.** -/
theorem fromCompressed_cut (hC : C.Lawful point) {n k : ℕ} (hc : pointSize * c < 2 ^ 64)
    (h : pointSize * c ≤ ((toCompressed C (powers ceremony n)).take k).length) :
    fromCompressed C ((toCompressed C (powers ceremony n)).take k) c = .ok (powers ceremony c) := by
  refine (Setup.fromCompressed_eq_ok hC hc).mpr ⟨h, ?_⟩
  rw [List.length_take, Setup.length_toCompressed hC, length_powers] at h
  have hcn : c ≤ n := Nat.le_of_mul_le_mul_left (h.trans (min_le_right _ _)) (by decide)
  rw [blocks_take (h.trans (min_le_left _ _)), Setup.mapM_blocks_toCompressed hC (by simpa using hcn),
    take_powers hcn]

theorem cache_loc : ((Path.ofLoc dir).join cacheName).loc = dir ++ [cacheName] :=
  Plain.join_loc (by decide) _

theorem cache_noNul : ((Path.ofLoc dir).join cacheName).hasNul = false := by
  rw [Plain.join (by decide)]
  rfl

theorem node_cache (fs : Fs) : node fs ((Path.ofLoc dir).join cacheName) = fs.lookup (dir ++ [cacheName]) :=
  node_join fs (by decide) (by simp [Path.Straight, Path.ofLoc])

theorem Cached.notDir (h : Cached C ceremony dir fs) : fs.lookup (dir ++ [cacheName]) ≠ some .dir := by
  rcases h.cache with hnone | ⟨n, k, hfile⟩
  · rw [hnone]; simp
  · rw [hfile]; simp

theorem held_eq {bytes : Bytes} (h : fs.lookup (dir ++ [cacheName]) = some (.file bytes)) :
    held dir fs = bytes.length / pointSize := by
  rw [held, h]

/-- **Downloading**: nothing is changed unless the download went well, and then the cache is written. -/
theorem downloadSetup_cases {net : Net} {o : Outcome CliError (List π)} (h : Cached C ceremony dir w.state)
    (hw : Disk.OnlyCrashes w.fates)
    (hnet : ∀ body, net (ptauUrlFor c) (Setup.downloadLimit c) = some body →
      C.readPtau body c = .ok (powers ceremony c))
    (hrun : downloadSetup C net ((Path.ofLoc dir).join cacheName) c w = (o, w')) :
    (c = 0 ∧ o = .panic ∧ w'.state = w.state) ∨ (o = .err (.setup .download) ∧ w'.state = w.state) ∨
    (o = .ok (powers ceremony c) ∧ w'.state.lookup dir = some .dir ∧
      w'.state.lookup (dir ++ [cacheName]) = some (.file (toCompressed C (powers ceremony c)))) ∨
    (o = .killed ∧ (∃ cut, Fate.kill cut ∈ w.fates) ∧ (w'.state = w.state ∨ ∃ cut,
      w'.state.lookup dir = some .dir ∧ w'.state.lookup (dir ++ [cacheName])
        = some (.file ((toCompressed C (powers ceremony c)).take cut)))) := by
  rw [downloadSetup] at hrun
  split at hrun
  · rename_i hzero
    rw [Prog.ofOutcome, Prod.mk.injEq] at hrun
    exact Or.inl ⟨hzero, hrun.1.symm, by rw [← hrun.2]⟩
  · right
    have hptau : Setup.fromPtauUrl C net (ptauUrlFor c) c = .error .download ∨
        Setup.fromPtauUrl C net (ptauUrlFor c) c = .ok (powers ceremony c) := by
      rw [Setup.fromPtauUrl]
      rcases hbody : net (ptauUrlFor c) (Setup.downloadLimit c) with _ | body
      · exact Or.inl rfl
      · simp only [hnet body hbody]
        exact Or.inr trivial
    rcases hptau with hfail | hok
    · left
      rw [hfail, Prog.andThen_run, Prod.mk.injEq] at hrun
      exact ⟨hrun.1.symm, by rw [← hrun.2]; rfl⟩
    · right
      have hset : (Prog.mapErr CliError.setup (Prog.ofOutcome (.ofExcept (.ok (powers ceremony c)))) :
          Io CliError _) w = (.ok (powers ceremony c), w) := rfl
      rw [hok, Prog.bind_run_ok hset] at hrun
      rcases Disk.write_crashes (ε := CliError) (b := toCompressed C (powers ceremony c)) cache_loc cache_noNul
        hw h.isDir h.notDir with ⟨w₁, hwrite, hdir, hfile⟩ | ⟨w₁, cut, hwrite, hmem, hstate⟩
      · left
        rw [Prog.bind_run_ok hwrite, Prog.pure_run, Prod.mk.injEq] at hrun
        exact ⟨hrun.1.symm, by rw [← hrun.2]; exact hdir, by rw [← hrun.2]; exact hfile⟩
      · right
        rw [Prog.andThen_run, hwrite, Prod.mk.injEq] at hrun
        refine ⟨hrun.1.symm, ⟨cut, hmem⟩, ?_⟩
        rw [← hrun.2]
        exact hstate

/-- A download into a cache that had fewer powers, or none. -/
theorem Cached.download (hC : C.Lawful point) (h : Cached C ceremony dir fs) (he : Admissible C ceremony e)
    (hw : w.state = fs) (hf : ∀ f ∈ w.fates, f ∈ e.fates) (hfew : held dir fs ≤ capacityFor e.rows)
    (hthere : capacityFor e.rows = 0 → fs.lookup (dir ++ [cacheName]) = none)
    (hrun : downloadSetup C e.net ((Path.ofLoc dir).join cacheName) (capacityFor e.rows) w = (e.outcome, w')) :
    Resolved ceremony dir fs e w'.state ∧ Cached C ceremony dir w'.state := by
  subst hw
  have hcompressed := Setup.length_toCompressed hC (powers ceremony (capacityFor e.rows))
  rw [length_powers] at hcompressed
  rcases downloadSetup_cases h (fun f hmem => he.crashes f (hf f hmem)) he.download hrun with
    ⟨hzero, ho, hsame⟩ | ⟨ho, hsame⟩ | ⟨ho, hdir, hfile⟩ | ⟨ho, ⟨cut, hmem⟩, hstate⟩
  · rw [hsame]
    exact ⟨⟨by simp [ho], by simp [ho], fun _ => hthere hzero, fun _ => le_rfl⟩, h⟩
  · rw [hsame]
    exact ⟨⟨by simp [ho], by simp [ho], by simp [ho], fun _ => le_rfl⟩, h⟩
  · have hheld : held dir w'.state = capacityFor e.rows := by
      rw [held_eq hfile, hcompressed, Nat.mul_div_cancel_left _ (by decide)]
    refine ⟨⟨fun s hs => ?_, by simp [ho], by simp [ho], fun _ => by rw [hheld]; exact hfew⟩,
      hdir, Or.inr ⟨capacityFor e.rows, _, hfile.trans (by rw [List.take_length])⟩⟩
    rw [ho, Outcome.ok.injEq] at hs
    exact ⟨hs.symm, hheld.ge⟩
  · refine ⟨⟨by simp [ho], by simp [ho], by simp [ho], fun hcalm => ?_⟩, ?_⟩
    · exact absurd (hcalm _ (hf _ hmem)) (by simp)
    · rcases hstate with hsame | ⟨cut', hdir, hfile⟩
      · rw [hsame]; exact h
      · exact ⟨hdir, Or.inr ⟨capacityFor e.rows, cut', hfile⟩⟩

/-- **One start keeps the cache and does what it should.** -/
theorem Cached.step (hC : C.Lawful point) (h : Cached C ceremony dir fs) (he : Admissible C ceremony e)
    (hstep : StartStep C dir fs e fs') : Resolved ceremony dir fs e fs' ∧ Cached C ceremony dir fs' := by
  obtain ⟨w', hrun, rfl⟩ := hstep
  have hword : pointSize * capacityFor e.rows < 2 ^ 64 := by
    have := he.capacity
    rw [pointSize]
    omega
  have hprobe : (Prog.probe ((Path.ofLoc dir).join cacheName).loc
      (fun fs => (node fs ((Path.ofLoc dir).join cacheName)).isSome) : Io CliError Bool) ⟨fs, e.fates, []⟩
        = (.ok (fs.lookup (dir ++ [cacheName])).isSome, ⟨fs, e.fates, [((Path.ofLoc dir).join cacheName).loc]⟩) := by
    rw [← node_cache]
    rfl
  rw [resolveSetup, Disk.pathExists, cache_noNul, if_neg (by simp), Prog.bind_run_ok hprobe] at hrun
  rcases h.cache with hnone | ⟨n, k, hfile⟩
  · rw [hnone] at hrun
    refine h.download hC he (w := ⟨fs, e.fates, _⟩) rfl (fun f hf => hf) ?_ (fun _ => hnone) hrun
    rw [held, hnone]
    exact Nat.zero_le _
  · rw [hfile] at hrun
    simp only [Option.isSome_some, if_true] at hrun
    generalize hbytes : (toCompressed C (powers ceremony n)).take k = bytes at hfile
    -- reading the cache
    rcases Disk.read_crashes (ε := SetupError) (p := (Path.ofLoc dir).join cacheName)
      (w := ⟨fs, e.fates, [((Path.ofLoc dir).join cacheName).loc]⟩) cache_noNul he.crashes
      ((node_cache fs).trans hfile) with ⟨w₁, hread, hf₁, hs₁⟩ | ⟨w₁, cut, hread, hmem, hs₁⟩
    · have hattempt : (Prog.attempt (Setup.fromFile C ((Path.ofLoc dir).join cacheName) (capacityFor e.rows)) :
          Io CliError _) ⟨fs, e.fates, [((Path.ofLoc dir).join cacheName).loc]⟩
            = (.ok (fromCompressed C bytes (capacityFor e.rows)), w₁) := by
        rw [Prog.attempt, Setup.fromFile, Prog.bind_run_ok hread, Prog.ofOutcome]
        rcases fromCompressed C bytes (capacityFor e.rows) with d | s <;> rfl
      rw [Prog.bind_run_ok hattempt] at hrun
      by_cases hlen : pointSize * capacityFor e.rows ≤ bytes.length
      · -- enough powers are left
        rw [← hbytes, fromCompressed_cut hC hword (by rw [hbytes]; exact hlen)] at hrun
        change (Outcome.ok _, w₁) = _ at hrun
        rw [Prod.mk.injEq] at hrun
        obtain ⟨ho, rfl⟩ := hrun
        rw [hs₁]
        refine ⟨⟨fun s hs => ?_, by simp [← ho], by simp [← ho], fun _ => le_rfl⟩, h⟩
        rw [← ho, Outcome.ok.injEq] at hs
        refine ⟨hs.symm, ?_⟩
        rw [held_eq hfile, Nat.le_div_iff_mul_le (by decide), Nat.mul_comm]
        exact hlen
      · -- too few: only this falls through to a download
        rw [Setup.fromCompressed_tooSmall hword (not_le.mp hlen)] at hrun
        refine h.download hC he hs₁ (fun f hf => List.mem_of_mem_tail (hf₁ ▸ hf)) ?_ (fun hzero => ?_) hrun
        · rw [held_eq hfile]
          exact (Nat.div_lt_of_lt_mul (not_le.mp hlen)).le
        · rw [hzero, Nat.mul_zero] at hlen
          exact absurd (Nat.zero_le _) hlen
    · have hattempt : (Prog.attempt (Setup.fromFile C ((Path.ofLoc dir).join cacheName) (capacityFor e.rows)) :
          Io CliError _) ⟨fs, e.fates, [((Path.ofLoc dir).join cacheName).loc]⟩ = (.killed, w₁) := by
        rw [Prog.attempt, Setup.fromFile, Prog.andThen_run, hread]
        rfl
      rw [Prog.andThen_run, hattempt, Prod.mk.injEq] at hrun
      obtain ⟨ho, rfl⟩ := hrun
      replace ho : e.outcome = .killed := ho.symm
      change Resolved ceremony dir fs e w₁.state ∧ Cached C ceremony dir w₁.state
      rw [hs₁]
      exact ⟨⟨by simp [ho], by simp [ho], by simp [ho], fun _ => le_rfl⟩, h⟩

/-- **The cache hands out only true prefixes of the ceremony**, at every start after any history of starts that
began without a cache. -/
theorem cache_hands_out_prefixes (hC : C.Lawful point) {fs₀ : Fs} {hist : List (Start π)}
    (hdir : fs₀.lookup dir = some .dir) (hnone : fs₀.lookup (dir ++ [cacheName]) = none)
    (hrun : Runs (StartStep C dir) fs₀ hist fs) (hhist : ∀ e ∈ hist, Admissible C ceremony e)
    (he : Admissible C ceremony e) (hstep : StartStep C dir fs e fs') :
    Resolved ceremony dir fs e fs' ∧ Cached C ceremony dir fs' := by
  have h : Cached C ceremony dir fs := hrun.invariant (P := fun _ fs => Cached C ceremony dir fs) hhist
    ⟨hdir, Or.inl hnone⟩ fun _ _ _ _ he h hstep => (h.step hC he hstep).2
  exact h.step hC he hstep

end Cache

section Sample

open SampleCurve

/-- A ceremony of which only the file of four powers can be downloaded. -/
def sampleNet : Net := fun url _ => if url = ptauUrlFor 4 then some [0, 1, 2, 3] else none

/-- A start that is to provide for three rows, on `fs`. -/
def sampleStart (fs : Fs) (fates : List Fate) : Start UInt8 :=
  ⟨3, sampleNet, fates, (resolveSetup curve sampleNet (Path.ofLoc []) 3 ⟨fs, fates, []⟩).1⟩

/-- What that start leaves. -/
def sampleLeft (fs : Fs) (fates : List Fate) : Fs :=
  (resolveSetup curve sampleNet (Path.ofLoc []) 3 ⟨fs, fates, []⟩).2.state

theorem sampleStart_admissible {fs : Fs} {fates : List Fate} (h : Disk.OnlyCrashes fates) :
    Admissible curve UInt8.ofNat (sampleStart fs fates) := by
  have hcap : capacityFor 3 = 4 := by decide +kernel
  refine ⟨?_, h, fun body hbody => ?_⟩
  · rw [sampleStart, hcap]
    decide
  · simp only [sampleStart, hcap, sampleNet, if_true, Option.some.injEq] at hbody ⊢
    rw [← hbody]
    decide +kernel

/-- A start killed forty bytes into the cache, and the one after it. -/
theorem cache_hands_out_prefixes_sample :
    let cut := sampleLeft FileTree.empty [.ok, .kill 40]
    held [] cut = 1 ∧ Resolved UInt8.ofNat [] cut (sampleStart cut []) (sampleLeft cut []) ∧
      Cached curve UInt8.ofNat [] (sampleLeft cut []) := by
  have hcrash : Disk.OnlyCrashes [.ok, .kill 40] := by
    intro f hf
    simp only [List.mem_cons, List.not_mem_nil, or_false] at hf
    exact hf.imp id fun h => ⟨40, h⟩
  refine ⟨by decide +kernel, ?_⟩
  have hrun : Runs (StartStep curve []) FileTree.empty [sampleStart FileTree.empty [.ok, .kill 40]]
      (sampleLeft FileTree.empty [.ok, .kill 40]) := Runs.nil.snoc ⟨_, rfl, rfl⟩
  exact cache_hands_out_prefixes curve_lawful (by decide +kernel) (by decide +kernel) hrun
    (by simpa using sampleStart_admissible hcrash) (sampleStart_admissible (by simp [Disk.OnlyCrashes]))
    ⟨_, rfl, rfl⟩

end Sample

end Cli

end SxtEnterprise
