import SxtEnterprise.FaultyRun
import SxtEnterprise.Paths

/-!
# The part of `std::fs` the service uses

Each function is one system call (or, for `write`, the two calls it makes) on a tree of directories
and files, logged under the location its path spells out.  A path with a NUL in it never reaches the
operating system: the call comes back with an error, and `exists` with `false`.

`exists` and `is_dir` answer by a test that cannot fail; every other call takes a `Fate`.
-/

namespace SxtEnterprise

open NumberedNames Paths FaultyRun

/-- File contents. -/
abbrev Bytes := List UInt8

/-- The file system. -/
abbrev Fs := FileTree Name Bytes

/-- A program on the file system. -/
abbrev Io (ε α : Type) := Prog Fs (Loc Name) ε α

/-- `From<std::io::Error>`. -/
class FromIo (ε : Type) where
  io : ε

namespace Disk

variable {ε α : Type} [FromIo ε]

/-- A call on a path with a NUL fails before it is made. -/
def guardNul (p : Path) (m : Io ε α) : Io ε α := if p.hasNul then Prog.fail FromIo.io else m

/-- One call on `p` that leaves the file system alone. -/
def readCall (p : Path) (f : List ℕ → Fs → Option α) : Io ε α :=
  guardNul p (Prog.sysCall p.loc FromIo.io (fun lost fs => (f lost fs, fs)) (fun _ fs => fs)
    fun _ fs => fs)

/-- `Path::exists`. -/
def pathExists (p : Path) : Io ε Bool :=
  if p.hasNul then Prog.done false else Prog.probe p.loc fun fs => (node fs p).isSome

/-- `Path::is_dir`. -/
def isDir (p : Path) : Io ε Bool :=
  if p.hasNul then Prog.done false else Prog.probe p.loc fun fs => node fs p = some .dir

/-- A listing with errors in place of the entries at the positions `lost`. -/
def losing (lost : List ℕ) (names : List Name) : List (Option Name) :=
  names.mapIdx fun i c => if i ∈ lost then none else some c

/-- The entries of the directory `p` names, if it names one. -/
def entries (p : Path) (lost : List ℕ) (fs : Fs) : Option (List (Option Name)) :=
  match walk fs p.start p.comps with
  | none => none
  | some q => if fs.lookup q = some .dir then some (losing lost (fs.children q)) else none

/-- `fs::read_dir`, iterated to its end: a name or an error for each entry. -/
def readDir (p : Path) : Io ε (List (Option Name)) := readCall p (entries p)

/-- `File::open`: a directory can be opened too, it is only that nothing can be read from it. -/
def openFile (p : Path) : Io ε (Node Bytes) := readCall p fun _ fs => node fs p

/-- `fs::read`. -/
def read (p : Path) : Io ε Bytes :=
  readCall p fun _ fs =>
    match node fs p with
    | some (.file b) => some b
    | _ => none

/-- `fs::create_dir_all`: the missing directories on the way, the outermost first.  A path ending in a
dot cannot make the directory it names, only the ones above it. -/
def createDirAll (p : Path) : Io ε Unit :=
  guardNul p (Prog.sysCall p.loc FromIo.io
    (fun _ fs =>
      if fs.blocked [] p.loc then (none, fs)
      else if p.trail = .dot ∧ fs.lookup p.loc = none then
        (none, fs.mkdirs [] p.loc (fs.missing p.loc - 1))
      else (some (), fs.mkdirs [] p.loc p.loc.length))
    (fun cut fs =>
      if fs.blocked [] p.loc then fs else fs.mkdirs [] p.loc (min cut (fs.missing p.loc - 1)))
    fun cut fs => if fs.blocked [] p.loc then fs else fs.mkdirs [] p.loc cut)

/-- `File::create`: an empty file, whatever the file held before. -/
def create (p : Path) : Io ε Unit :=
  guardNul p (Prog.sysCall p.loc FromIo.io
    (fun _ fs =>
      match fs.write p.loc [] with
      | some fs' => (some (), fs')
      | none => (none, fs))
    (fun _ fs => fs) fun _ fs => fs)

/-- Writing `bytes` to the file just created at `p`; cut short, the file keeps the first of them. -/
def writeAll (p : Path) (bytes : Bytes) : Io ε Unit :=
  let keep (cut : ℕ) (fs : Fs) : Fs := (fs.write p.loc (bytes.take cut)).getD fs
  guardNul p (Prog.sysCall p.loc FromIo.io
    (fun _ fs =>
      match fs.write p.loc bytes with
      | some fs' => (some (), fs')
      | none => (none, fs))
    keep keep)

/-- `fs::write`. -/
def write (p : Path) (bytes : Bytes) : Io ε Unit := do
  create p
  writeAll p bytes

/-! ### What the calls do -/

section Reading

variable {p : Path}

theorem reader_guardNul {m : Io ε α} (h : m.Reader) : (guardNul p m).Reader := by
  rw [guardNul]
  split
  · exact Prog.Reader.fail _
  · exact h

theorem reader_readCall (f : List ℕ → Fs → Option α) : (readCall p f : Io ε α).Reader :=
  reader_guardNul (Prog.Reader.sysCall (fun _ _ => rfl) (fun _ _ => rfl) fun _ _ => rfl)

omit [FromIo ε] in
theorem reader_pathExists : (pathExists p : Io ε Bool).Reader := by
  rw [pathExists]
  split
  · exact Prog.Reader.done _
  · exact Prog.Reader.probe _ _

omit [FromIo ε] in
theorem reader_isDir : (isDir p : Io ε Bool).Reader := by
  rw [isDir]
  split
  · exact Prog.Reader.done _
  · exact Prog.Reader.probe _ _

theorem reader_readDir : (readDir p : Io ε _).Reader := reader_readCall _

theorem reader_openFile : (openFile p : Io ε _).Reader := reader_readCall _

theorem reader_read : (read p : Io ε _).Reader := reader_readCall _

theorem exact_read : (read p : Io ε _).Exact := by
  rw [read, readCall, guardNul]
  split
  · exact Prog.Exact.ofOption _ none
  · exact Prog.Exact.sysCall

omit [FromIo ε] in
theorem exact_pathExists : (pathExists p : Io ε Bool).Exact := by
  rw [pathExists]
  split
  · exact Prog.Exact.pure _
  · exact Prog.Exact.probe _ _

theorem eval_readCall (f : List ℕ → Fs → Option α) (fs : Fs) :
    (readCall p f : Io ε α).eval fs
      = if p.hasNul then .err FromIo.io else Prog.answer FromIo.io (f [] fs) := by
  rw [readCall, guardNul]
  split <;> rfl

theorem eval_readCall_ok {f : List ℕ → Fs → Option α} {fs : Fs} {a : α} :
    (readCall p f : Io ε α).eval fs = .ok a ↔ p.hasNul = false ∧ f [] fs = some a := by
  rw [eval_readCall]
  split
  · rename_i h; simp [h]
  · rename_i h
    rw [Bool.not_eq_true] at h
    rcases f [] fs with _ | b <;> simp [h, Prog.answer]

omit [FromIo ε] in
@[simp] theorem eval_pathExists (fs : Fs) :
    (pathExists p : Io ε Bool).eval fs = .ok (!p.hasNul && (node fs p).isSome) := by
  rw [pathExists]
  split
  · rename_i h; rw [h]; rfl
  · rename_i h
    rw [Bool.not_eq_true] at h
    rw [h]
    rfl

omit [FromIo ε] in
@[simp] theorem eval_isDir (fs : Fs) :
    (isDir p : Io ε Bool).eval fs = .ok (!p.hasNul && decide (node fs p = some .dir)) := by
  rw [isDir]
  split
  · rename_i h; rw [h]; rfl
  · rename_i h
    rw [Bool.not_eq_true] at h
    rw [h]
    rfl

theorem losing_nil (names : List Name) : losing [] names = names.map some := by
  rw [losing]
  apply List.ext_getElem <;> simp

theorem eval_openFile_ok {fs : Fs} {n : Node Bytes} :
    (openFile p : Io ε _).eval fs = .ok n ↔ p.hasNul = false ∧ node fs p = some n :=
  eval_readCall_ok

theorem eval_read_ok {fs : Fs} {b : Bytes} :
    (read p : Io ε _).eval fs = .ok b ↔ p.hasNul = false ∧ node fs p = some (.file b) := by
  rw [read, eval_readCall_ok]
  rcases node fs p with _ | _ | c <;> simp

/-- Where a path that never steps back leads, if it leads to anything. -/
theorem walk_of_lookup {fs : Fs} (h : p.Straight) {n : Node Bytes} (hn : fs.lookup p.loc = some n) :
    walk fs p.start p.comps = some p.loc := by
  have hw := walk_bind_lookup fs h p.start
  rw [← Path.loc_straight h] at hw
  have hcur : ∀ cs : List Name, dotdot ∉ cs → ∀ cur q, walk fs cur cs = some q → q = cur ++ cs := by
    intro cs
    induction cs with
    | nil => intro _ cur q hq; simpa [walk, eq_comm] using hq
    | cons c cs ih =>
      intro hd cur q hq
      rw [List.mem_cons, not_or] at hd
      rw [walk] at hq
      split at hq
      · rw [Path.stepTo, if_neg (fun hc => hd.1 hc.symm)] at hq
        simpa using ih hd.2 _ _ hq
      · simp at hq
  rcases hq : walk fs p.start p.comps with _ | q
  · rw [hq, hn] at hw; simp at hw
  · rw [Path.loc_straight h, hcur p.comps h _ _ hq]

/-- A listing succeeds on directories, and then lists them. -/
theorem entries_straight {fs : Fs} (h : p.Straight) :
    entries p [] fs = if fs.lookup p.loc = some .dir then some ((fs.children p.loc).map some) else none := by
  rw [entries]
  by_cases hd : fs.lookup p.loc = some .dir
  · rw [if_pos hd, walk_of_lookup h hd]
    simp only [hd, if_true, losing_nil]
  · rw [if_neg hd]
    rcases hw : walk fs p.start p.comps with _ | q
    · rfl
    · have hwalk := walk_bind_lookup fs h p.start
      rw [← Path.loc_straight h, hw] at hwalk
      have hq : fs.lookup q ≠ some .dir := fun hq => hd (hwalk.symm.trans hq)
      simp only [if_neg hq]

theorem eval_readDir_ok {fs : Fs} (h : p.Straight) {es : List (Option Name)} :
    (readDir p : Io ε _).eval fs = .ok es ↔
      p.hasNul = false ∧ fs.lookup p.loc = some .dir ∧ es = (fs.children p.loc).map some := by
  rw [readDir, eval_readCall_ok, entries_straight h]
  refine and_congr_right fun _ => ?_
  split
  · rename_i hd; simp [hd, eq_comm]
  · rename_i hd; simp [hd]

end Reading

/-! ### What the changing calls do when they end well -/

section Changing

variable {p : Path} {w w' : World Fs (Loc Name)}

theorem guardNul_ok {m : Io ε α} {a : α} :
    guardNul p m w = (.ok a, w') ↔ p.hasNul = false ∧ m w = (.ok a, w') := by
  rw [guardNul]
  split
  · rename_i h; simp [h]
  · rename_i h
    rw [Bool.not_eq_true] at h
    simp [h]

theorem create_ok {q : Loc Name} {c : Name} (hp : p.loc = q ++ [c]) (hl : Lossless w.fates) :
    (create p : Io ε Unit) w = (.ok (), w') ↔
      p.hasNul = false ∧ (w.fates.headD .ok).stops = false ∧
        ∃ fs', w.state.setFile q c [] = some fs' ∧
          w' = { state := fs', fates := w.fates.tail, log := p.loc :: w.log } := by
  rw [create, guardNul_ok, Prog.sysCall_eq_ok hl, hp, FileTree.write_concat]
  rcases w.state.setFile q c [] with _ | fs' <;> simp

theorem createDirAll_ok (hl : Lossless w.fates) :
    (createDirAll p : Io ε Unit) w = (.ok (), w') ↔
      p.hasNul = false ∧ (w.fates.headD .ok).stops = false ∧
        w.state.blocked [] p.loc = false ∧ ¬ (p.trail = .dot ∧ w.state.lookup p.loc = none) ∧
          w' = { state := w.state.mkdirs [] p.loc p.loc.length,
                 fates := w.fates.tail, log := p.loc :: w.log } := by
  rw [createDirAll, guardNul_ok, Prog.sysCall_eq_ok hl]
  refine and_congr_right fun _ => and_congr_right fun _ => ?_
  split
  · rename_i h; simp [h]
  · rename_i h
    rw [Bool.not_eq_true] at h
    split
    · rename_i hd; simp [hd]
    · rename_i hd; simp [h, hd]

/-- A file written to its end holds what was written. -/
theorem write_done {q : Loc Name} {c : Name} {bytes : Bytes} (hp : p.loc = q ++ [c])
    (h : (write p bytes : Io ε Unit) w = (.ok (), w')) :
    p.hasNul = false ∧ w'.state.lookup (q ++ [c]) = some (.file bytes) := by
  obtain ⟨_, w₁, -, h⟩ := Prog.bind_eq_ok.mp h
  obtain ⟨hnul, h⟩ := guardNul_ok.mp h
  obtain ⟨lost, hact, rfl⟩ := Prog.sysCall_done h
  refine ⟨hnul, ?_⟩
  simp only [hp, FileTree.write_concat] at hact ⊢
  rcases hset : w₁.state.setFile q c bytes with _ | fs' <;> rw [hset] at hact
  · simp at hact
  · rw [(FileTree.setFile_spec hset).lookup, if_pos rfl]

/-- Whatever befalls it, `create_dir_all` only makes directories on the way. -/
theorem createDirAll_cases {o : Outcome ε Unit} (hl : Lossless w.fates)
    (h : createDirAll p w = (o, w')) :
    ∃ k, w'.state = w.state.mkdirs [] p.loc k ∧
      (o = .ok () → p.hasNul = false ∧ w.state.blocked [] p.loc = false ∧
        ¬ (p.trail = .dot ∧ w.state.lookup p.loc = none) ∧ k = p.loc.length ∧
        w'.fates = w.fates.tail) := by
  by_cases ho : o = .ok ()
  · subst ho
    obtain ⟨hnul, -, hb, ht, rfl⟩ := (createDirAll_ok hl).mp h
    exact ⟨_, rfl, fun _ => ⟨hnul, hb, ht, rfl, rfl⟩⟩
  · suffices hk : ∃ k, w'.state = w.state.mkdirs [] p.loc k from
      hk.imp fun k hk => ⟨hk, fun h => absurd h ho⟩
    have hzero : w.state = w.state.mkdirs [] p.loc 0 := (FileTree.mkdirs_zero _ _ _).symm
    rw [createDirAll, guardNul] at h
    split at h
    · rw [Prog.fail_run, Prod.mk.injEq] at h
      exact ⟨0, by rw [← h.2]; exact hzero⟩
    · rw [Prog.sysCall, Prod.mk.injEq] at h
      obtain ⟨-, rfl⟩ := h
      rcases hf : w.fates.headD .ok with _ | cut | cut | lost <;> dsimp only
      · split
        · exact ⟨0, hzero⟩
        · split
          · exact ⟨_, rfl⟩
          · exact ⟨_, rfl⟩
      · split
        · exact ⟨0, hzero⟩
        · exact ⟨_, rfl⟩
      · split
        · exact ⟨0, hzero⟩
        · exact ⟨_, rfl⟩
      · split
        · exact ⟨0, hzero⟩
        · split
          · exact ⟨_, rfl⟩
          · exact ⟨_, rfl⟩

/-- What can stop `create_dir_all`, and what it has made by then. -/
theorem createDirAll_stops {o : Outcome ε Unit} (hl : Lossless w.fates) (h : createDirAll p w = (o, w'))
    (ho : o ≠ .ok ()) :
    (p.hasNul = true ∧ w'.state = w.state) ∨ (w.state.blocked [] p.loc = true ∧ w'.state = w.state) ∨
    (p.trail = .dot ∧ w.state.lookup p.loc = none ∧ ∃ k, w'.state = w.state.mkdirs [] p.loc k) ∨
    (p.hasNul = false ∧ w.state.blocked [] p.loc = false ∧ ((∃ cut, w.fates.headD .ok = .fail cut ∧
      w'.state = w.state.mkdirs [] p.loc (min cut (w.state.missing p.loc - 1))) ∨
    ∃ cut, w.fates.headD .ok = .kill cut ∧ w'.state = w.state.mkdirs [] p.loc cut)) := by
  by_cases hnul : p.hasNul = true
  · rw [createDirAll, guardNul, if_pos hnul, Prog.fail_run, Prod.mk.injEq] at h
    exact Or.inl ⟨hnul, by rw [← h.2]⟩
  by_cases hb : w.state.blocked [] p.loc = true
  · refine Or.inr (Or.inl ⟨hb, ?_⟩)
    rw [createDirAll, guardNul, if_neg hnul, Prog.sysCall, Prod.mk.injEq] at h
    rw [← h.2]
    rcases w.fates.headD .ok with _ | cut | cut | lost <;> simp [hb]
  refine Or.inr (Or.inr ?_)
  by_cases hdot : p.trail = .dot ∧ w.state.lookup p.loc = none
  · obtain ⟨k, hk, -⟩ := createDirAll_cases hl h
    exact Or.inl ⟨hdot.1, hdot.2, k, hk⟩
  rw [Bool.not_eq_true] at hnul hb
  refine Or.inr ⟨hnul, hb, ?_⟩
  rcases hf : w.fates.headD .ok with _ | cut | cut | lost
  · have hok := (createDirAll_ok (ε := ε) hl).mpr ⟨hnul, by rw [hf]; rfl, hb, hdot, rfl⟩
    rw [h, Prod.mk.injEq] at hok
    exact absurd hok.1 ho
  · rw [createDirAll, guardNul, hnul, if_neg (by simp), Prog.sysCall, Prod.mk.injEq] at h
    exact Or.inl ⟨cut, rfl, by rw [← h.2, hf]; simp [hb]⟩
  · rw [createDirAll, guardNul, hnul, if_neg (by simp), Prog.sysCall, Prod.mk.injEq] at h
    exact Or.inr ⟨cut, rfl, by rw [← h.2, hf]; simp [hb]⟩
  · have hok := (createDirAll_ok (ε := ε) hl).mpr ⟨hnul, by rw [hf]; rfl, hb, hdot, rfl⟩
    rw [h, Prod.mk.injEq] at hok
    exact absurd hok.1 ho

/-- A file created is empty; one not created has left everything as it was. -/
theorem create_cases {q : Loc Name} {c : Name} {o : Outcome ε Unit} (hp : p.loc = q ++ [c])
    (hl : Lossless w.fates) (h : create p w = (o, w')) :
    (w'.state = w.state ∧ o ≠ .ok ()) ∨
      (o = .ok () ∧ p.hasNul = false ∧ (w.fates.headD .ok).stops = false ∧
        w'.fates = w.fates.tail ∧ w.state.Sets q c [] w'.state) := by
  by_cases ho : o = .ok ()
  · subst ho
    obtain ⟨hnul, hs, fs', hset, rfl⟩ := (create_ok hp hl).mp h
    exact Or.inr ⟨rfl, hnul, hs, rfl, FileTree.setFile_spec hset⟩
  · refine Or.inl ⟨?_, ho⟩
    rw [create, guardNul] at h
    split at h
    · rw [Prog.fail_run, Prod.mk.injEq] at h
      rw [← h.2]
    · rw [Prog.sysCall, Prod.mk.injEq] at h
      obtain ⟨h1, rfl⟩ := h
      rcases hf : w.fates.headD .ok with _ | cut | cut | lost
      · rw [hf] at h1
        rcases hw : w.state.write p.loc [] with _ | fs'
        · simp
        · rw [hw] at h1; exact absurd h1.symm ho
      · rfl
      · rfl
      · rw [hf] at h1
        rcases hw : w.state.write p.loc [] with _ | fs'
        · simp
        · rw [hw] at h1; exact absurd h1.symm ho

/-- What can keep a file from being created. -/
theorem create_stops {q : Loc Name} {c : Name} (hp : p.loc = q ++ [c]) (hl : Lossless w.fates)
    (h : ((create p : Io ε Unit) w).1 ≠ .ok ()) :
    p.hasNul = true ∨ (w.fates.headD .ok).stops = true ∨ w.state.lookup q ≠ some .dir ∨
      w.state.lookup (q ++ [c]) = some .dir := by
  by_contra hno
  simp only [not_or, Bool.not_eq_true, not_not] at hno
  obtain ⟨hnul, hs, hd, hc⟩ := hno
  obtain ⟨fs', hset⟩ := FileTree.setFile_isSome (b := ([] : Bytes)) hd hc
  exact h (congrArg Prod.fst ((create_ok (ε := ε) hp hl).mpr ⟨hnul, hs, fs', hset, rfl⟩))

/-- Writing a file that is there, whole or up to where the call was cut short. -/
theorem writeAll_cases {q : Loc Name} {c : Name} {bytes b : Bytes} {o : Outcome ε Unit}
    (hp : p.loc = q ++ [c]) (hnul : p.hasNul = false) (hl : Lossless w.fates)
    (hb : w.state.lookup (q ++ [c]) = some (.file b)) (h : writeAll p bytes w = (o, w')) :
    w'.fates = w.fates.tail ∧
    ((o ≠ .ok () ∧ ∃ cut, (w.fates.headD .ok = .fail cut ∨ w.fates.headD .ok = .kill cut) ∧
        w.state.Sets q c (bytes.take cut) w'.state) ∨
      (o = .ok () ∧ (w.fates.headD .ok).stops = false ∧ w.state.Sets q c bytes w'.state)) := by
  have hset : ∀ x, ∃ fs', w.state.write p.loc x = some fs' ∧ w.state.Sets q c x fs' := by
    intro x
    have hdir := w.state.lookup_parent (p := q) (c := c) (by rw [hb]; simp)
    obtain ⟨fs', h'⟩ := FileTree.setFile_isSome (b := x) hdir (by rw [hb]; simp)
    exact ⟨fs', by rw [hp, FileTree.write_concat, h'], FileTree.setFile_spec h'⟩
  have hlossy : ∀ lost, w.fates.headD .ok ≠ .lossy lost := by
    intro lost hh
    cases hw : w.fates with
    | nil => rw [hw] at hh; simp at hh
    | cons f fs =>
      rw [hw, List.headD_cons] at hh
      exact hl lost (by rw [hw, hh]; simp)
  rw [writeAll, guardNul, hnul, if_neg (by simp), Prog.sysCall, Prod.mk.injEq] at h
  obtain ⟨rfl, rfl⟩ := h
  refine ⟨rfl, ?_⟩
  rcases hf : w.fates.headD .ok with _ | cut | cut | lost
  · obtain ⟨fs', h1, h2⟩ := hset bytes
    simp only [h1]
    exact Or.inr ⟨rfl, rfl, h2⟩
  · obtain ⟨fs', h1, h2⟩ := hset (bytes.take cut)
    simp only [h1, Option.getD_some]
    exact Or.inl ⟨by simp, cut, Or.inl rfl, h2⟩
  · obtain ⟨fs', h1, h2⟩ := hset (bytes.take cut)
    simp only [h1, Option.getD_some]
    exact Or.inl ⟨by simp, cut, Or.inr rfl, h2⟩
  · exact absurd hf (hlossy lost)

end Changing

/-! ### What the calls are made on -/

section Touching

variable {S : Loc Name → Prop} {p : Path}

theorem touches_guardNul {m : Io ε α} (h : p.hasNul = false → m.Touches S) : (guardNul p m).Touches S := by
  rw [guardNul]
  split
  · exact Prog.Touches.fail _
  · rename_i hnul
    exact h (by simpa using hnul)

theorem touches_readCall {f : List ℕ → Fs → Option α} (h : p.hasNul = false → S p.loc) :
    (readCall p f : Io ε α).Touches S := touches_guardNul fun hnul => Prog.Touches.sysCall (h hnul)

omit [FromIo ε] in
theorem touches_pathExists (h : p.hasNul = false → S p.loc) : (pathExists p : Io ε Bool).Touches S := by
  rw [pathExists]
  split
  · exact Prog.Touches.done _
  · rename_i hnul
    exact Prog.Touches.probe (h (by simpa using hnul)) _

theorem touches_createDirAll (h : p.hasNul = false → S p.loc) : (createDirAll p : Io ε Unit).Touches S :=
  touches_guardNul fun hnul => Prog.Touches.sysCall (h hnul)

theorem touches_create (h : p.hasNul = false → S p.loc) : (create p : Io ε Unit).Touches S :=
  touches_guardNul fun hnul => Prog.Touches.sysCall (h hnul)

theorem touches_writeAll {bytes : Bytes} (h : p.hasNul = false → S p.loc) : (writeAll p bytes : Io ε Unit).Touches S :=
  touches_guardNul fun hnul => Prog.Touches.sysCall (h hnul)

theorem touches_write {bytes : Bytes} (h : p.hasNul = false → S p.loc) : (write p bytes : Io ε Unit).Touches S :=
  (touches_create h).bind fun _ => touches_writeAll h

end Touching

/-! ### The only error there is -/

section Raising

variable {P : ε → Prop} {p : Path}

theorem raises_guardNul {m : Io ε α} (hP : P FromIo.io) (h : m.Raises P) : (guardNul p m).Raises P := by
  rw [guardNul]
  split
  · exact Prog.Raises.fail hP
  · exact h

theorem raises_readCall {f : List ℕ → Fs → Option α} (hP : P FromIo.io) :
    (readCall p f : Io ε α).Raises P := raises_guardNul hP (Prog.Raises.sysCall hP)

theorem raises_createDirAll (hP : P FromIo.io) : (createDirAll p : Io ε Unit).Raises P :=
  raises_guardNul hP (Prog.Raises.sysCall hP)

theorem raises_create (hP : P FromIo.io) : (create p : Io ε Unit).Raises P :=
  raises_guardNul hP (Prog.Raises.sysCall hP)

theorem raises_writeAll {bytes : Bytes} (hP : P FromIo.io) : (writeAll p bytes : Io ε Unit).Raises P :=
  raises_guardNul hP (Prog.Raises.sysCall hP)

end Raising

/-! ### How many calls there are -/

section Counting

variable {p : Path}

theorem calls_guardNul {k : ℕ} {m : Io ε α} (h : m.Calls k) : (guardNul p m).Calls k := by
  rw [guardNul]
  split
  · exact Prog.Calls.fail k _
  · exact h

theorem calls_readCall {f : List ℕ → Fs → Option α} : (readCall p f : Io ε α).Calls 1 :=
  calls_guardNul Prog.Calls.sysCall

omit [FromIo ε] in
theorem calls_pathExists : (pathExists p : Io ε Bool).Calls 0 := by
  rw [pathExists]
  split
  · exact Prog.Calls.done _
  · exact Prog.Calls.probe _ _

theorem calls_createDirAll : (createDirAll p : Io ε Unit).Calls 1 := calls_guardNul Prog.Calls.sysCall

theorem calls_create : (create p : Io ε Unit).Calls 1 := calls_guardNul Prog.Calls.sysCall

theorem calls_writeAll {bytes : Bytes} : (writeAll p bytes : Io ε Unit).Calls 1 :=
  calls_guardNul Prog.Calls.sysCall

theorem steady_readCall {f : List ℕ → Fs → Option α} : (readCall p f : Io ε α).Steady 1 := by
  rw [readCall, guardNul]
  split
  · exact Prog.Steady.fail 1 _
  · exact Prog.Steady.sysCall

omit [FromIo ε] in
theorem steady_pathExists : (pathExists p : Io ε Bool).Steady 0 := by
  rw [pathExists]
  split
  · exact Prog.Steady.done _
  · exact Prog.Steady.probe _ _

end Counting

/-! ### No call panics -/

section Panicking

variable {p : Path}

theorem noPanic_guardNul {m : Io ε α} (h : m.NoPanic) : (guardNul p m).NoPanic := by
  rw [guardNul]
  split
  · exact Prog.NoPanic.fail _
  · exact h

theorem noPanic_readCall {f : List ℕ → Fs → Option α} : (readCall p f : Io ε α).NoPanic :=
  noPanic_guardNul Prog.NoPanic.sysCall

omit [FromIo ε] in
theorem noPanic_pathExists : (pathExists p : Io ε Bool).NoPanic := by
  rw [pathExists]
  split
  · exact Prog.NoPanic.pure _
  · exact Prog.NoPanic.probe _ _

theorem noPanic_create : (create p : Io ε Unit).NoPanic := noPanic_guardNul Prog.NoPanic.sysCall

theorem noPanic_writeAll {bytes : Bytes} : (writeAll p bytes : Io ε Unit).NoPanic :=
  noPanic_guardNul Prog.NoPanic.sysCall

theorem noPanic_write {bytes : Bytes} : (write p bytes : Io ε Unit).NoPanic :=
  noPanic_create.bind fun _ => noPanic_writeAll

end Panicking

/-! ### What a program leaves behind -/

section Leaving

variable {p : Path} {q : Loc Name} {c : Name}

theorem leaves_write {bytes : Bytes} (hp : p.loc = q ++ [c]) :
    (write p bytes : Io ε Unit).Leaves (FileTree.OnlySets q c) := by
  intro w hl
  rw [write]
  rcases hcreate : (create p : Io ε Unit) w with ⟨o, w₁⟩
  rcases create_cases hp hl hcreate with ⟨hsame, ho⟩ | ⟨rfl, hnul, -, hf, hset⟩
  · obtain ⟨hstop, -⟩ := Prog.bind_run_stop (m := create p) (f := fun _ => (writeAll p bytes : Io ε Unit)) (w := w)
      (by rw [hcreate]; rintro ⟨⟩; exact ho)
    rw [hstop, hcreate]
    exact Or.inl hsame
  · rw [Prog.bind_run_ok hcreate]
    rcases hwrite : (writeAll p bytes : Io ε Unit) w₁ with ⟨o, w₂⟩
    rcases (writeAll_cases hp hnul (by rw [hf]; exact hl.tail) hset.self hwrite).2 with
      ⟨-, cut, -, hset'⟩ | ⟨-, -, hset'⟩
    · exact Or.inr ⟨_, hset.again hset'⟩
    · exact Or.inr ⟨_, hset.again hset'⟩

end Leaving

/-! ### No call looks at the log -/

section Repeating

variable {p : Path}

theorem repeats_guardNul {m : Io ε α} (h : m.Lockstep (· = ·)) : (guardNul p m).Lockstep (· = ·) := by
  rw [guardNul]
  split
  · exact Prog.Lockstep.fail _
  · exact h

theorem repeats_readCall {f : List ℕ → Fs → Option α} : (readCall p f : Io ε α).Lockstep (· = ·) :=
  repeats_guardNul Prog.Lockstep.sysCall_self

omit [FromIo ε] in
theorem repeats_pathExists : (pathExists p : Io ε Bool).Lockstep (· = ·) := by
  rw [pathExists]
  split
  · exact Prog.Lockstep.done _
  · apply Prog.Lockstep.probe
    rintro fs _ rfl
    rfl

theorem repeats_write {bytes : Bytes} : (write p bytes : Io ε Unit).Lockstep (· = ·) :=
  Prog.Lockstep.bind (repeats_guardNul Prog.Lockstep.sysCall_self) fun _ _ =>
    repeats_guardNul Prog.Lockstep.sysCall_self

end Repeating

end Disk

end SxtEnterprise
