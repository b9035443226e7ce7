import Mathlib

/-!
# Programs over a persistent state, stopped at any system call

A `Prog σ τ ε α` is a program that makes system calls on a state `σ` that outlives it, and ends with a
result `α`, an error `ε`, a panic, or not at all, because the process is killed.  What befalls the
calls is not the program's choice: the world holds a list of `Fate`s, each call takes the next one,
and past the end of the list every call goes well.  A statement for every list of fates is therefore a
statement for every point at which the program can stop.  The world also logs what each call was
made on.

* `bind_eq_ok` takes a program that ended well apart into steps that did.
* `Reader`: a program that only reads.  Its value on a calm world (`eval`) is then a function of the
  state, and `Reader.eval_bind` computes it step by step.  `Exact`: one that lists nothing, so that no fate
  changes what it finds.
* `Touches`: what a program's calls are made on, whatever their fates.
* `Raises`: which errors a program can end in.
* `Calls`: how many calls a program makes before it ends well; `Steady`: only these can stop it.
* `Lockstep`: a program that cannot tell two related states apart.
* `NoPanic`: a program that never panics.
* `Leaves`: how the state a program leaves is related to the one it found.
* `TurnsAway`: a program that has changed nothing when it ends in one of certain errors.
-/

namespace SxtEnterprise.FaultyRun

/-- What befalls one system call.  A call cut short leaves the part of its effect that `cut` says; a
listing may come back with errors in place of the entries at the positions `lost`. -/
inductive Fate where
  | ok
  | fail (cut : ℕ)
  | kill (cut : ℕ)
  | lossy (lost : List ℕ)
  deriving DecidableEq

/-- The call comes back with an error, or not at all. -/
def Fate.stops : Fate → Bool
  | .fail _ | .kill _ => true
  | _ => false

/-- No listing comes back with errors in place of entries. -/
def Lossless (fates : List Fate) : Prop := ∀ lost, Fate.lossy lost ∉ fates

theorem Lossless.nil : Lossless [] := by intro lost; simp

theorem Lossless.tail {fates : List Fate} (h : Lossless fates) : Lossless fates.tail :=
  fun lost hl => h lost (List.mem_of_mem_tail hl)

/-- How a program ends. -/
inductive Outcome (ε α : Type) where
  | ok (a : α)
  | err (e : ε)
  | panic
  | killed
  deriving DecidableEq

namespace Outcome

variable {ε ε' α β : Type}

instance : Monad (Outcome ε) where
  pure := .ok
  bind o f :=
    match o with
    | .ok a => f a
    | .err e => .err e
    | .panic => .panic
    | .killed => .killed

instance : LawfulMonad (Outcome ε) := by
  refine LawfulMonad.mk' _ ?_ (fun _ _ => rfl) ?_
  · intro α x
    cases x <;> rfl
  · intro α β γ x f g
    cases x <;> rfl

/-- The `?` of a call whose error becomes `e`. -/
def ofOption (e : ε) : Option α → Outcome ε α
  | some a => .ok a
  | none => .err e

/-- The `?` of a call with an error of its own. -/
def ofExcept : Except ε α → Outcome ε α
  | .ok a => .ok a
  | .error e => .err e

def isOk : Outcome ε α → Bool
  | .ok _ => true
  | _ => false

/-- Every error changed by `f`. -/
def mapErr (f : ε → ε') : Outcome ε α → Outcome ε' α
  | .ok a => .ok a
  | .err e => .err (f e)
  | .panic => .panic
  | .killed => .killed

theorem isOk_iff {o : Outcome ε α} : o.isOk = true ↔ ∃ a, o = .ok a := by
  cases o <;> simp [isOk]

theorem bind_eq_ok {o : Outcome ε α} {f : α → Outcome ε β} {b : β} :
    (o >>= f) = .ok b ↔ ∃ a, o = .ok a ∧ f a = .ok b := by
  rcases o with a | e | _ | _ <;> simp [bind]

theorem pure_eq_ok {a b : α} : (pure a : Outcome ε α) = .ok b ↔ a = b := by simp [pure]

theorem ofOption_eq_ok {e : ε} {o : Option α} {a : α} : ofOption e o = .ok a ↔ o = some a := by
  cases o <;> simp [ofOption]

theorem ofExcept_eq_ok {x : Except ε α} {a : α} : ofExcept x = .ok a ↔ x = .ok a := by
  cases x <;> simp [ofExcept]

theorem mapErr_eq_ok {f : ε → ε'} {o : Outcome ε α} {a : α} : o.mapErr f = .ok a ↔ o = .ok a := by
  rcases o with b | e | _ | _ <;> simp [mapErr]

end Outcome

/-- The state, what the coming system calls meet, and what the calls so far were made on. -/
structure World (σ τ : Type) where
  state : σ
  fates : List Fate
  log : List τ

/-- A program that makes system calls. -/
def Prog (σ τ ε α : Type) : Type := World σ τ → Outcome ε α × World σ τ

variable {σ τ ε α β : Type}

namespace Prog

/-- Ends with `a`. -/
def done (a : α) : Prog σ τ ε α := fun w => (.ok a, w)

/-- Goes on with the result, unless there is none. -/
def andThen (m : Prog σ τ ε α) (f : α → Prog σ τ ε β) : Prog σ τ ε β := fun w =>
  match m w with
  | (.ok a, w') => f a w'
  | (.err e, w') => (.err e, w')
  | (.panic, w') => (.panic, w')
  | (.killed, w') => (.killed, w')

instance : Monad (Prog σ τ ε) where
  pure := done
  bind := andThen

/-- Ends with the error `e`. -/
def fail (e : ε) : Prog σ τ ε α := fun w => (.err e, w)

/-- Ends as `o` says, without a system call. -/
def ofOutcome (o : Outcome ε α) : Prog σ τ ε α := fun w => (o, w)

/-- The `?` of a call that has no effect: its error becomes `e`. -/
def ofOption (e : ε) : Option α → Prog σ τ ε α
  | some a => done a
  | none => fail e

/-- `m`, its errors changed by `f`. -/
def mapErr {ε' : Type} (f : ε → ε') (m : Prog σ τ ε α) : Prog σ τ ε' α := fun w => ((m w).1.mapErr f, (m w).2)

/-- `m`, its error taken as a result. -/
def attempt {ε' : Type} (m : Prog σ τ ε α) : Prog σ τ ε' (Except ε α) := fun w =>
  match m w with
  | (.ok a, w') => (.ok (.ok a), w')
  | (.err e, w') => (.ok (.error e), w')
  | (.panic, w') => (.panic, w')
  | (.killed, w') => (.killed, w')

/-- A test of the state that cannot fail, made on `t`. -/
def probe (t : τ) (f : σ → α) : Prog σ τ ε α := fun w =>
  (.ok (f w.state), { w with log := t :: w.log })

/-- The `?` of a call's own result. -/
def answer (e : ε) : Option α → Outcome ε α
  | some a => .ok a
  | none => .err e

/-- One system call on `t`.  `act` is what it does when it is not cut short, given the positions a
listing loses; `onFail` and `onKill` are what is left of its effect when it is. -/
def sysCall (t : τ) (io : ε) (act : List ℕ → σ → Option α × σ) (onFail onKill : ℕ → σ → σ) :
    Prog σ τ ε α := fun w =>
  let met : Outcome ε α × σ :=
    match w.fates.headD .ok with
    | .ok => (answer io (act [] w.state).1, (act [] w.state).2)
    | .lossy lost => (answer io (act lost w.state).1, (act lost w.state).2)
    | .fail cut => (.err io, onFail cut w.state)
    | .kill cut => (.killed, onKill cut w.state)
  (met.1, { state := met.2, fates := w.fates.tail, log := t :: w.log })

@[simp] theorem pure_run (a : α) (w : World σ τ) : (pure a : Prog σ τ ε α) w = (.ok a, w) := rfl

@[simp] theorem done_run (a : α) (w : World σ τ) : (done a : Prog σ τ ε α) w = (.ok a, w) := rfl

@[simp] theorem fail_run (e : ε) (w : World σ τ) : (fail e : Prog σ τ ε α) w = (.err e, w) := rfl

@[simp] theorem ofOption_some (e : ε) (a : α) : (ofOption e (some a) : Prog σ τ ε α) = done a := rfl

/-- A program that ends well goes on with its result. -/
theorem bind_run_ok {m : Prog σ τ ε α} {f : α → Prog σ τ ε β} {w w' : World σ τ} {a : α}
    (h : m w = (.ok a, w')) : (m >>= f) w = f a w' := by
  show andThen m f w = _
  rw [andThen, h]

/-- A program that stops stops whatever would have come after it. -/
theorem bind_run_stop {m : Prog σ τ ε α} {f : α → Prog σ τ ε β} {w : World σ τ}
    (h : ∀ a, (m w).1 ≠ .ok a) : ((m >>= f) w).2 = (m w).2 ∧ ∀ b, ((m >>= f) w).1 ≠ .ok b := by
  show (andThen m f w).2 = _ ∧ ∀ b, (andThen m f w).1 ≠ _
  rw [andThen]
  rcases hm : m w with ⟨_ | _ | _ | _, w'⟩ <;> simp [hm] at h ⊢

/-- **A program that ended well**, taken apart. -/
theorem bind_eq_ok {m : Prog σ τ ε α} {f : α → Prog σ τ ε β} {w w' : World σ τ} {b : β} :
    (m >>= f) w = (.ok b, w') ↔ ∃ a w₁, m w = (.ok a, w₁) ∧ f a w₁ = (.ok b, w') := by
  constructor
  · intro h
    rcases hm : m w with ⟨a | e | _ | _, w₁⟩
    · exact ⟨a, w₁, rfl, (bind_run_ok hm).symm.trans h⟩
    all_goals
      change andThen m f w = _ at h
      rw [andThen, hm] at h
      simp at h
  · rintro ⟨a, w₁, hm, hf⟩
    rw [bind_run_ok hm, hf]

theorem mapErr_eq_ok {ε' : Type} {f : ε → ε'} {m : Prog σ τ ε α} {w w' : World σ τ} {a : α} :
    mapErr f m w = (.ok a, w') ↔ m w = (.ok a, w') := by
  rw [mapErr, Prod.mk.injEq, Outcome.mapErr_eq_ok]
  exact ⟨fun h => Prod.ext h.1 h.2, fun h => by rw [h]; exact ⟨rfl, rfl⟩⟩

theorem ofOutcome_eq_ok {o : Outcome ε α} {w w' : World σ τ} {a : α} :
    (ofOutcome o : Prog σ τ ε α) w = (.ok a, w') ↔ o = .ok a ∧ w' = w := by
  rw [ofOutcome, Prod.mk.injEq, eq_comm (a := w)]

theorem ofOption_eq_ok {e : ε} {o : Option α} {w w' : World σ τ} {a : α} :
    (ofOption e o : Prog σ τ ε α) w = (.ok a, w') ↔ o = some a ∧ w' = w := by
  cases o <;> simp [ofOption, eq_comm]

instance : LawfulMonad (Prog σ τ ε) := by
  refine LawfulMonad.mk' _ ?_ (fun _ _ => rfl) ?_
  · intro α x
    funext w
    show andThen x (fun a => done a) w = x w
    rw [andThen]
    rcases x w with ⟨_ | _ | _ | _, w'⟩ <;> rfl
  · intro α β γ x f g
    funext w
    show andThen (andThen x f) g w = andThen x (fun a => andThen (f a) g) w
    simp only [andThen]
    rcases x w with ⟨_ | _ | _ | _, w'⟩ <;> rfl

/-! ### One system call -/

section Calls

variable {t : τ} {io : ε} {act : List ℕ → σ → Option α × σ} {onFail onKill : ℕ → σ → σ}
  {w w' : World σ τ} {a : α}

/-- A call that ended well did what it does, for whatever a listing lost. -/
theorem sysCall_done (h : sysCall t io act onFail onKill w = (.ok a, w')) :
    ∃ lost, (act lost w.state).1 = some a ∧
      w' = { state := (act lost w.state).2, fates := w.fates.tail, log := t :: w.log } := by
  have hanswer : ∀ x : Option α, answer io x = .ok a → x = some a := by
    intro x hx
    cases x with
    | none => simp [answer] at hx
    | some b => rw [answer, Outcome.ok.injEq] at hx; rw [hx]
  rw [sysCall, Prod.mk.injEq] at h
  obtain ⟨ho, rfl⟩ := h
  rcases hf : w.fates.headD .ok with _ | cut | cut | lost <;> rw [hf] at ho
  · exact ⟨[], hanswer _ ho, rfl⟩
  · simp at ho
  · simp at ho
  · exact ⟨lost, hanswer _ ho, rfl⟩

/-- A call that ended well did what it does, and was not cut short. -/
theorem sysCall_eq_ok (hl : Lossless w.fates) :
    sysCall t io act onFail onKill w = (.ok a, w') ↔
      (w.fates.headD .ok).stops = false ∧ (act [] w.state).1 = some a ∧
        w' = { state := (act [] w.state).2, fates := w.fates.tail, log := t :: w.log } := by
  have hhead : ∀ lost, w.fates.headD .ok ≠ .lossy lost := by
    intro lost h
    cases hf : w.fates with
    | nil => rw [hf] at h; simp at h
    | cons f fs =>
      rw [hf, List.headD_cons] at h
      exact hl lost (by rw [hf, h]; simp)
  rw [sysCall]
  rcases hh : w.fates.headD .ok with _ | cut | cut | lost
  · rcases act [] w.state with ⟨_ | b, s⟩ <;> simp [Fate.stops, answer, eq_comm]
  · simp [Fate.stops]
  · simp [Fate.stops]
  · exact absurd hh (hhead lost)

/-- A call that goes well. -/
theorem sysCall_run (hf : w.fates.headD .ok = .ok) (ha : (act [] w.state).1 = some a) :
    sysCall t io act onFail onKill w
      = (.ok a, { state := (act [] w.state).2, fates := w.fates.tail, log := t :: w.log }) := by
  rw [sysCall, hf]
  simp only [ha, answer]

end Calls

/-! ### Programs that only read -/

/-- The result on a world in which nothing goes wrong. -/
def eval (m : Prog σ τ ε α) (s : σ) : Outcome ε α := (m ⟨s, [], []⟩).1

/-- `m` only reads: it leaves the state alone, on a calm world its result is a function of the state,
and a result it reaches through faults is the one it would have reached without them. -/
structure Reader (m : Prog σ τ ε α) : Prop where
  state : ∀ w, (m w).2.state = w.state
  lossless : ∀ w, Lossless w.fates → Lossless (m w).2.fates
  calm : ∀ w, w.fates = [] → (m w).1 = m.eval w.state ∧ (m w).2.fates = []
  honest : ∀ w a, Lossless w.fates → (m w).1 = .ok a → m.eval w.state = .ok a

/-- The ways an outcome can be no result carry over to any result type. -/
def castStop : Outcome ε α → Outcome ε β
  | .ok _ => .panic
  | .err e => .err e
  | .panic => .panic
  | .killed => .killed

theorem andThen_run (m : Prog σ τ ε α) (f : α → Prog σ τ ε β) (w : World σ τ) :
    (m >>= f) w = match (m w).1 with
      | .ok a => f a (m w).2
      | o => (castStop o, (m w).2) := by
  show andThen m f w = _
  rw [andThen]
  rcases m w with ⟨_ | _ | _ | _, w'⟩ <;> rfl

/-- A program that stops without a panic stops whatever would have come after it. -/
theorem bind_run_stopped {m : Prog σ τ ε α} {f : α → Prog σ τ ε β} {w : World σ τ} (h : ∀ a, (m w).1 ≠ .ok a)
    (hp : (m w).1 ≠ .panic) :
    ((m >>= f) w).2 = (m w).2 ∧ (∀ b, ((m >>= f) w).1 ≠ .ok b) ∧ ((m >>= f) w).1 ≠ .panic := by
  obtain ⟨h1, h2⟩ := bind_run_stop (f := f) h
  refine ⟨h1, h2, ?_⟩
  rw [andThen_run]
  rcases ho : (m w).1 with a | e | _ | _
  · exact absurd ho (h a)
  · simp [castStop]
  · exact absurd ho hp
  · simp [castStop]

theorem Reader.done (a : α) : Reader (done a : Prog σ τ ε α) where
  state _ := rfl
  lossless _ h := h
  calm _ h := ⟨rfl, h⟩
  honest _ _ _ h := h

theorem Reader.pure (a : α) : Reader (pure a : Prog σ τ ε α) := Reader.done a

theorem Reader.fail (e : ε) : Reader (fail e : Prog σ τ ε α) where
  state _ := rfl
  lossless _ h := h
  calm _ h := ⟨rfl, h⟩
  honest _ _ _ h := h

theorem Reader.ofOption (e : ε) (o : Option α) : Reader (ofOption e o : Prog σ τ ε α) := by
  cases o with
  | none => exact Reader.fail e
  | some a => exact Reader.done a

theorem Reader.ofOutcome (o : Outcome ε α) : Reader (ofOutcome o : Prog σ τ ε α) where
  state _ := rfl
  lossless _ h := h
  calm _ h := ⟨rfl, h⟩
  honest _ _ _ h := h

@[simp] theorem eval_ofOutcome (o : Outcome ε α) (s : σ) : (ofOutcome o : Prog σ τ ε α).eval s = o := rfl

theorem Reader.mapErr {ε' : Type} {f : ε → ε'} {m : Prog σ τ ε α} (hm : Reader m) : Reader (mapErr f m) where
  state := hm.state
  lossless := hm.lossless
  calm w h := ⟨congrArg (Outcome.mapErr f) (hm.calm w h).1, (hm.calm w h).2⟩
  honest w a hl h := by
    rw [Prog.mapErr, Outcome.mapErr_eq_ok] at h
    exact Outcome.mapErr_eq_ok.mpr (hm.honest w a hl h)

theorem eval_mapErr {ε' : Type} (f : ε → ε') (m : Prog σ τ ε α) (s : σ) :
    (mapErr f m).eval s = (m.eval s).mapErr f := rfl

theorem Reader.probe (t : τ) (f : σ → α) : Reader (probe t f : Prog σ τ ε α) where
  state _ := rfl
  lossless _ h := h
  calm _ h := ⟨rfl, h⟩
  honest _ _ _ h := h

/-- A call that leaves the state alone, whatever befalls it, only reads. -/
theorem Reader.sysCall {t : τ} {io : ε} {act : List ℕ → σ → Option α × σ} {onFail onKill : ℕ → σ → σ}
    (hact : ∀ lost s, (act lost s).2 = s) (hfail : ∀ cut s, onFail cut s = s)
    (hkill : ∀ cut s, onKill cut s = s) : Reader (sysCall t io act onFail onKill) where
  state w := by
    rw [Prog.sysCall]
    rcases w.fates.headD .ok with _ | cut | cut | lost
    · exact hact _ _
    · exact hfail _ _
    · exact hkill _ _
    · exact hact _ _
  lossless w h := h.tail
  calm w h := by
    rw [eval, Prog.sysCall, Prog.sysCall, h]
    exact ⟨rfl, rfl⟩
  honest w a hl h := by
    have hrun : Prog.sysCall t io act onFail onKill w = (.ok a, (Prog.sysCall t io act onFail onKill w).2) :=
      Prod.ext h rfl
    obtain ⟨-, ha, -⟩ := (sysCall_eq_ok hl).mp hrun
    rw [eval, sysCall_run (w := ⟨w.state, [], []⟩) rfl ha]

/-- Reading programs compose. -/
theorem Reader.bind {m : Prog σ τ ε α} {f : α → Prog σ τ ε β} (hm : Reader m)
    (hf : ∀ a, Reader (f a)) : Reader (m >>= f) where
  state w := by
    rw [andThen_run]
    rcases h : (m w).1 with a | e | _ | _
    · simp only []
      rw [(hf a).state, hm.state]
    all_goals exact hm.state w
  lossless w hl := by
    rw [andThen_run]
    rcases h : (m w).1 with a | e | _ | _
    · exact (hf a).lossless _ (hm.lossless w hl)
    all_goals exact hm.lossless w hl
  calm w hw := by
    have hmw := hm.calm w hw
    have hm0 := hm.calm ⟨w.state, [], []⟩ rfl
    rw [eval, andThen_run, andThen_run, hmw.1, hm0.1]
    rcases h : m.eval w.state with a | e | _ | _
    · have h1 := (hf a).calm _ hmw.2
      have h0 := (hf a).calm _ hm0.2
      rw [hm.state] at h1 h0
      exact ⟨h1.1.trans h0.1.symm, h1.2⟩
    all_goals exact ⟨rfl, hmw.2⟩
  honest w b hl h := by
    rw [andThen_run] at h
    rcases hmw : (m w).1 with a | e | _ | _
    · rw [hmw] at h
      have hma := hm.honest w a hl hmw
      have hfa := (hf a).honest _ b (hm.lossless w hl) h
      rw [hm.state] at hfa
      have hm0 := hm.calm ⟨w.state, [], []⟩ rfl
      rw [eval, andThen_run, hm0.1, hma]
      have h0 := ((hf a).calm _ hm0.2).1
      rw [hm.state] at h0
      exact h0.trans hfa
    all_goals rw [hmw] at h; simp [castStop] at h

/-- **What a reading program evaluates to**, step by step. -/
theorem Reader.eval_bind {m : Prog σ τ ε α} {f : α → Prog σ τ ε β} (hm : Reader m)
    (hf : ∀ a, Reader (f a)) (s : σ) :
    (m >>= f).eval s = match m.eval s with
      | .ok a => (f a).eval s
      | o => castStop o := by
  have hm0 := hm.calm ⟨s, [], []⟩ rfl
  rw [eval, andThen_run, hm0.1]
  rcases h : m.eval s with a | e | _ | _
  · have h0 := ((hf a).calm _ hm0.2).1
    rw [hm.state] at h0
    exact h0
  all_goals rfl

theorem Reader.eval_bind_ok {m : Prog σ τ ε α} {f : α → Prog σ τ ε β} (hm : Reader m)
    (hf : ∀ a, Reader (f a)) {s : σ} {b : β} :
    (m >>= f).eval s = .ok b ↔ ∃ a, m.eval s = .ok a ∧ (f a).eval s = .ok b := by
  rw [hm.eval_bind hf]
  rcases m.eval s with a | e | _ | _ <;> simp [castStop]

/-- A reading program that ends well on a calm world, run on any world as calm with that state. -/
theorem Reader.run_calm {m : Prog σ τ ε α} (hm : Reader m) {w : World σ τ} (hw : w.fates = []) {a : α}
    (h : m.eval w.state = .ok a) : ∃ w', m w = (.ok a, w') ∧ w'.state = w.state ∧ w'.fates = [] := by
  obtain ⟨h1, h2⟩ := hm.calm w hw
  exact ⟨(m w).2, Prod.ext (h1.trans h) rfl, hm.state w, h2⟩

theorem Reader.mapM {f : α → Prog σ τ ε β} (hf : ∀ a, Reader (f a)) (l : List α) :
    Reader (l.mapM f) := by
  induction l with
  | nil => rw [List.mapM_nil]; exact Reader.pure _
  | cons a l ih =>
    rw [List.mapM_cons]
    exact (hf a).bind fun b => ih.bind fun bs => Reader.pure _

/-- A list of reads ends well when each of them does. -/
theorem Reader.eval_mapM_ok {f : α → Prog σ τ ε β} (hf : ∀ a, Reader (f a)) {l : List α} {bs : List β}
    {s : σ} : (l.mapM f).eval s = .ok bs ↔ List.Forall₂ (fun a b => (f a).eval s = .ok b) l bs := by
  induction l generalizing bs with
  | nil =>
    rw [List.mapM_nil, List.forall₂_nil_left_iff]
    show (Outcome.ok [] : Outcome ε (List β)) = .ok bs ↔ _
    simp [eq_comm]
  | cons a l ih =>
    rw [List.mapM_cons, (hf a).eval_bind_ok fun b => (Reader.mapM hf l).bind fun bs => Reader.pure _]
    constructor
    · rintro ⟨b, hb, h⟩
      rw [(Reader.mapM hf l).eval_bind_ok fun bs => Reader.pure _] at h
      obtain ⟨bs', hbs, hp⟩ := h
      obtain rfl : b :: bs' = bs := by
        change (Outcome.ok (b :: bs') : Outcome ε (List β)) = .ok bs at hp
        simpa using hp
      exact .cons hb (ih.mp hbs)
    · intro h
      cases h with
      | cons hb hbs =>
        refine ⟨_, hb, ?_⟩
        rw [(Reader.mapM hf l).eval_bind_ok fun bs => Reader.pure _]
        exact ⟨_, ih.mpr hbs, rfl⟩

/-- A list of reads whose results are known. -/
theorem Reader.eval_mapM_map {f : α → Prog σ τ ε β} (hf : ∀ a, Reader (f a)) {l : List α} {g : α → β}
    {s : σ} (h : ∀ a ∈ l, (f a).eval s = .ok (g a)) : (l.mapM f).eval s = .ok (l.map g) := by
  rw [Reader.eval_mapM_ok hf, List.forall₂_map_right_iff, List.forall₂_same]
  exact h

/-- A list of reads sees no difference if none of them does. -/
theorem Reader.eval_mapM_congr {f : α → Prog σ τ ε β} (hf : ∀ a, Reader (f a)) {l : List α} {s s' : σ}
    (h : ∀ a ∈ l, (f a).eval s = (f a).eval s') : (l.mapM f).eval s = (l.mapM f).eval s' := by
  induction l with
  | nil => rw [List.mapM_nil]; rfl
  | cons a l ih =>
    have hrest : ∀ b, (do
        let bs ← l.mapM f
        Pure.pure (b :: bs) : Prog σ τ ε (List β)).Reader :=
      fun b => (Reader.mapM hf l).bind fun bs => Reader.pure _
    rw [List.mapM_cons, (hf a).eval_bind hrest, (hf a).eval_bind hrest, h a (by simp)]
    rcases (f a).eval s' with b | e | _ | _
    · simp only []
      rw [(Reader.mapM hf l).eval_bind fun bs => Reader.pure _,
        (Reader.mapM hf l).eval_bind fun bs => Reader.pure _, ih fun x hx => h x (by simp [hx])]
      rcases (l.mapM f).eval s' <;> rfl
    all_goals rfl

/-- A reader that lists nothing: a result it reaches is the one it would have reached had every call gone well. -/
structure Exact (m : Prog σ τ ε α) : Prop extends Reader m where
  finds : ∀ w a, (m w).1 = .ok a → m.eval w.state = .ok a

theorem Exact.pure (a : α) : Exact (pure a : Prog σ τ ε α) := ⟨Reader.pure a, fun _ _ h => h⟩

theorem Exact.ofOption (e : ε) (o : Option α) : Exact (ofOption e o : Prog σ τ ε α) := by
  refine ⟨Reader.ofOption e o, fun w a h => ?_⟩
  cases o with
  | none => exact h
  | some b => exact h

theorem Exact.ofOutcome (o : Outcome ε α) : Exact (ofOutcome o : Prog σ τ ε α) :=
  ⟨Reader.ofOutcome o, fun _ _ h => h⟩

theorem Exact.probe (t : τ) (f : σ → α) : Exact (probe t f : Prog σ τ ε α) :=
  ⟨Reader.probe t f, fun _ _ h => h⟩

theorem Exact.sysCall {t : τ} {io : ε} {f : σ → Option α} :
    Exact (sysCall t io (fun _ s => (f s, s)) (fun _ s => s) (fun _ s => s)) := by
  refine ⟨Reader.sysCall (fun _ _ => rfl) (fun _ _ => rfl) fun _ _ => rfl, fun w a h => ?_⟩
  obtain ⟨lost, hact, -⟩ := sysCall_done (Prod.ext h rfl :
    Prog.sysCall t io (fun _ s => (f s, s)) (fun _ s => s) (fun _ s => s) w = (.ok a, _))
  show answer io (f w.state) = .ok a
  rw [show f w.state = some a from hact]
  rfl

theorem Exact.bind {m : Prog σ τ ε α} {f : α → Prog σ τ ε β} (hm : Exact m) (hf : ∀ a, Exact (f a)) :
    Exact (m >>= f) := by
  refine ⟨hm.toReader.bind fun a => (hf a).toReader, fun w b h => ?_⟩
  obtain ⟨a, w₁, hma, hfb⟩ := bind_eq_ok.mp (Prod.ext h rfl : (m >>= f) w = (.ok b, _))
  have hstate : w₁.state = w.state := by
    have := hm.state w
    rwa [hma] at this
  apply (hm.toReader.eval_bind_ok fun a => (hf a).toReader).mpr
  refine ⟨a, hm.finds w a (by rw [hma]), ?_⟩
  rw [← hstate]
  exact (hf a).finds w₁ b (by rw [hfb])

theorem Exact.eval_bind_ok {m : Prog σ τ ε α} {f : α → Prog σ τ ε β} (hm : Exact m) (hf : ∀ a, Exact (f a)) {s : σ}
    {b : β} : (m >>= f).eval s = .ok b ↔ ∃ a, m.eval s = .ok a ∧ (f a).eval s = .ok b :=
  hm.toReader.eval_bind_ok fun a => (hf a).toReader

theorem Exact.mapM {f : α → Prog σ τ ε β} (hf : ∀ a, Exact (f a)) (l : List α) : Exact (l.mapM f) := by
  induction l with
  | nil => rw [List.mapM_nil]; exact Exact.pure _
  | cons a l ih =>
    rw [List.mapM_cons]
    exact (hf a).bind fun b => ih.bind fun bs => Exact.pure _

/-- A list of reads with one more in it that goes well. -/
theorem Reader.eval_mapM_insert_ok {f : α → Prog σ τ ε β} (hf : ∀ a, Reader (f a)) {l₁ l₂ : List α} {x : α}
    {b : β} {bs : List β} {s s' : σ} (hsame : ∀ a ∈ l₁ ++ l₂, (f a).eval s' = (f a).eval s)
    (hx : (f x).eval s' = .ok b) (h : ((l₁ ++ l₂).mapM f).eval s = .ok bs) :
    ∃ bs₁ bs₂, bs = bs₁ ++ bs₂ ∧ ((l₁ ++ x :: l₂).mapM f).eval s' = .ok (bs₁ ++ b :: bs₂) := by
  rw [Reader.eval_mapM_ok hf] at h
  have h' : List.Forall₂ (fun a b => (f a).eval s' = .ok b) (l₁ ++ l₂) bs := by
    rw [List.forall₂_iff_zip] at h ⊢
    exact ⟨h.1, fun hmem => (hsame _ (List.of_mem_zip hmem).1).trans (h.2 hmem)⟩
  refine ⟨bs.take l₁.length, bs.drop l₁.length, (List.take_append_drop _ _).symm, ?_⟩
  rw [Reader.eval_mapM_ok hf]
  refine List.rel_append ?_ (.cons hx ?_)
  · simpa using List.forall₂_take l₁.length h'
  · simpa using List.forall₂_drop l₁.length h'

/-- One more read that goes well does not keep a list of reads from stopping where it did. -/
theorem Reader.eval_mapM_insert_stop {f : α → Prog σ τ ε β} (hf : ∀ a, Reader (f a)) {l₁ l₂ : List α}
    {x : α} {b : β} {s s' : σ} (hsame : ∀ a ∈ l₁ ++ l₂, (f a).eval s' = (f a).eval s)
    (hx : (f x).eval s' = .ok b) (h : ∀ bs, ((l₁ ++ l₂).mapM f).eval s ≠ .ok bs) :
    ((l₁ ++ x :: l₂).mapM f).eval s' = ((l₁ ++ l₂).mapM f).eval s := by
  have hrest : ∀ (l : List α) b, (do
      let bs ← l.mapM f
      Pure.pure (b :: bs) : Prog σ τ ε (List β)).Reader :=
    fun l b => (Reader.mapM hf l).bind fun bs => Reader.pure _
  have hcons : ∀ (l : List α) b s, (do
      let bs ← l.mapM f
      Pure.pure (b :: bs) : Prog σ τ ε (List β)).eval s =
        match (l.mapM f).eval s with
        | .ok bs => .ok (b :: bs)
        | o => castStop o := by
    intro l b s
    rw [(Reader.mapM hf l).eval_bind fun bs => Reader.pure _]
    rcases (l.mapM f).eval s <;> rfl
  induction l₁ with
  | nil =>
    have hl : (l₂.mapM f).eval s' = (l₂.mapM f).eval s := Reader.eval_mapM_congr hf hsame
    rw [List.nil_append, List.nil_append, List.mapM_cons, (hf x).eval_bind (hrest l₂), hx]
    simp only []
    rw [hcons, hl]
    rcases hm : (l₂.mapM f).eval s with bs | _ | _ | _
    · exact absurd hm (h bs)
    all_goals rfl
  | cons a l₁ ih =>
    rw [List.cons_append, List.cons_append, List.mapM_cons, List.mapM_cons, (hf a).eval_bind (hrest _),
      (hf a).eval_bind (hrest _), hsame a (by simp)]
    rcases ha : (f a).eval s with b' | _ | _ | _
    · simp only []
      rw [hcons, hcons, ih (fun y hy => hsame y (by simp at hy ⊢; tauto)) fun bs hbs => ?_]
      refine h (b' :: bs) ?_
      rw [List.cons_append, List.mapM_cons, (hf a).eval_bind (hrest _), ha]
      simp only []
      rw [hcons, hbs]
    all_goals rfl

/-! ### What a program's calls are made on -/

/-- Every call `m` makes, whatever befalls it, is made on something in `S`. -/
def Touches (S : τ → Prop) (m : Prog σ τ ε α) : Prop :=
  ∀ w, ∀ t ∈ (m w).2.log, t ∈ w.log ∨ S t

variable {S : τ → Prop}

theorem Touches.done (a : α) : Touches S (done a : Prog σ τ ε α) := fun _ _ h => Or.inl h

theorem Touches.pure (a : α) : Touches S (pure a : Prog σ τ ε α) := Touches.done a

theorem Touches.fail (e : ε) : Touches S (fail e : Prog σ τ ε α) := fun _ _ h => Or.inl h

theorem Touches.ofOutcome (o : Outcome ε α) : Touches S (ofOutcome o : Prog σ τ ε α) :=
  fun _ _ h => Or.inl h

theorem Touches.ofOption (e : ε) (o : Option α) : Touches S (ofOption e o : Prog σ τ ε α) := by
  cases o with
  | none => exact Touches.fail e
  | some a => exact Touches.done a

theorem Touches.probe {t : τ} (ht : S t) (f : σ → α) : Touches S (probe t f : Prog σ τ ε α) := by
  intro w t' h
  rcases List.mem_cons.mp h with rfl | h
  · exact Or.inr ht
  · exact Or.inl h

theorem Touches.sysCall {t : τ} {io : ε} {act : List ℕ → σ → Option α × σ}
    {onFail onKill : ℕ → σ → σ} (ht : S t) : Touches S (sysCall t io act onFail onKill) := by
  intro w t' h
  rcases List.mem_cons.mp h with rfl | h
  · exact Or.inr ht
  · exact Or.inl h

/-- What comes after a step need only be right for the results that step can have. -/
theorem Touches.bind_of {m : Prog σ τ ε α} {f : α → Prog σ τ ε β} (hm : Touches S m)
    (hf : ∀ a w, (m w).1 = .ok a → Touches S (f a)) : Touches S (m >>= f) := by
  intro w t h
  rw [andThen_run] at h
  rcases hmw : (m w).1 with a | e | _ | _
  · rw [hmw] at h
    rcases hf a w hmw _ t h with h | h
    · exact hm w t h
    · exact Or.inr h
  all_goals rw [hmw] at h; exact hm w t h

theorem Touches.bind {m : Prog σ τ ε α} {f : α → Prog σ τ ε β} (hm : Touches S m)
    (hf : ∀ a, Touches S (f a)) : Touches S (m >>= f) := hm.bind_of fun a _ _ => hf a

theorem Touches.mapM {f : α → Prog σ τ ε β} {l : List α} (hf : ∀ a ∈ l, Touches S (f a)) :
    Touches S (l.mapM f) := by
  induction l with
  | nil => rw [List.mapM_nil]; exact Touches.pure _
  | cons a l ih =>
    rw [List.mapM_cons]
    exact (hf a (by simp)).bind fun b => (ih fun a' ha => hf a' (by simp [ha])).bind fun bs => Touches.pure _

/-! ### How many calls a program makes -/

/-- When `m` ends well it has made `k` calls that take a fate, and none of them was cut short. -/
def Calls (k : ℕ) (m : Prog σ τ ε α) : Prop :=
  ∀ w w' a, Lossless w.fates → m w = (.ok a, w') →
    (∀ f ∈ w.fates.take k, f.stops = false) ∧ w'.fates = w.fates.drop k

theorem Calls.done (a : α) : Calls 0 (done a : Prog σ τ ε α) := by
  intro w w' b _ h
  rw [done_run, Prod.mk.injEq] at h
  simp [← h.2]

theorem Calls.pure (a : α) : Calls 0 (pure a : Prog σ τ ε α) := Calls.done a

theorem Calls.fail (k : ℕ) (e : ε) : Calls k (fail e : Prog σ τ ε α) := by
  intro w w' b _ h
  simp at h

theorem Calls.ofOption (e : ε) (o : Option α) : Calls 0 (ofOption e o : Prog σ τ ε α) := by
  cases o with
  | none => exact Calls.fail 0 e
  | some a => exact Calls.done a

theorem Calls.probe (t : τ) (f : σ → α) : Calls 0 (probe t f : Prog σ τ ε α) := by
  intro w w' b _ h
  rw [Prog.probe, Prod.mk.injEq] at h
  simp [← h.2]

theorem Calls.sysCall {t : τ} {io : ε} {act : List ℕ → σ → Option α × σ} {onFail onKill : ℕ → σ → σ} :
    Calls 1 (sysCall t io act onFail onKill) := by
  intro w w' a hl h
  obtain ⟨hs, -, rfl⟩ := (sysCall_eq_ok hl).mp h
  refine ⟨?_, by simp⟩
  intro f hf
  cases hw : w.fates with
  | nil => rw [hw] at hf; simp at hf
  | cons g gs =>
    rw [hw] at hf hs
    rw [List.take_one, List.head?_cons, Option.toList_some, List.mem_singleton] at hf
    rw [hf]
    exact hs

theorem Calls.bind {m : Prog σ τ ε α} {f : α → Prog σ τ ε β} {j k : ℕ} (hm : Calls j m)
    (hf : ∀ a, Calls k (f a)) : Calls (j + k) (m >>= f) := by
  intro w w' b hl h
  obtain ⟨a, w₁, hmw, hfw⟩ := bind_eq_ok.mp h
  obtain ⟨hm1, hm2⟩ := hm w w₁ a hl hmw
  have hl1 : Lossless w₁.fates := by
    rw [hm2]
    exact fun lost hmem => hl lost (List.mem_of_mem_drop hmem)
  obtain ⟨hf1, hf2⟩ := hf a w₁ w' b hl1 hfw
  rw [hm2] at hf1 hf2
  refine ⟨?_, by rw [hf2, List.drop_drop]⟩
  intro g hg
  rw [List.take_add, List.mem_append] at hg
  exact hg.elim (hm1 g) (hf1 g)

/-- When none of the first `k` calls is cut short, `m` ends as on a calm world. -/
def Steady (k : ℕ) (m : Prog σ τ ε α) : Prop :=
  ∀ w, Lossless w.fates → (∀ f ∈ w.fates.take k, f.stops = false) → (m w).1 = m.eval w.state

theorem Steady.done (a : α) : Steady 0 (done a : Prog σ τ ε α) := fun _ _ _ => rfl

theorem Steady.pure (a : α) : Steady 0 (pure a : Prog σ τ ε α) := fun _ _ _ => rfl

theorem Steady.fail (k : ℕ) (e : ε) : Steady k (fail e : Prog σ τ ε α) := fun _ _ _ => rfl

theorem Steady.ofOption (e : ε) (o : Option α) : Steady 0 (ofOption e o : Prog σ τ ε α) := by
  cases o with
  | none => exact Steady.fail 0 e
  | some a => exact Steady.done a

theorem Steady.probe (t : τ) (f : σ → α) : Steady 0 (probe t f : Prog σ τ ε α) := fun _ _ _ => rfl

theorem Steady.sysCall {t : τ} {io : ε} {act : List ℕ → σ → Option α × σ} {onFail onKill : ℕ → σ → σ} :
    Steady 1 (sysCall t io act onFail onKill) := by
  intro w hl hgo
  rw [eval, Prog.sysCall, Prog.sysCall]
  rcases hw : w.fates with _ | ⟨f, fs⟩
  · rfl
  · have hstop := hgo f (by rw [hw]; simp)
    rw [List.headD_cons]
    rcases f with _ | cut | cut | lost
    · rfl
    · simp [Fate.stops] at hstop
    · simp [Fate.stops] at hstop
    · exact absurd (by rw [hw]; simp) (hl lost)

theorem Steady.bind {m : Prog σ τ ε α} {f : α → Prog σ τ ε β} {j k : ℕ} (hm : Steady j m)
    (hc : Calls j m) (hr : Reader m) (hf : ∀ a, Steady k (f a)) (hfr : ∀ a, Reader (f a)) :
    Steady (j + k) (m >>= f) := by
  intro w hl hgo
  have hfirst : ∀ g ∈ w.fates.take j, g.stops = false := fun g hg =>
    hgo g (List.take_subset_take_left w.fates (by omega) hg)
  rw [hr.eval_bind hfr, andThen_run, hm w hl hfirst]
  rcases h : m.eval w.state with a | e | _ | _
  · have hok : m w = (.ok a, (m w).2) := Prod.ext ((hm w hl hfirst).trans h) rfl
    obtain ⟨-, hdrop⟩ := hc w _ a hl hok
    have hrest : ∀ g ∈ (m w).2.fates.take k, g.stops = false := by
      intro g hg
      rw [hdrop] at hg
      refine hgo g ?_
      rw [List.take_add, List.mem_append]
      exact Or.inr hg
    simp only []
    rw [hf a _ (hr.lossless w hl) hrest, hr.state]
  all_goals rfl

/-! ### Two runs side by side -/

/-- On two states related by `R`, under the same fates, `m` ends alike and leaves related states. -/
def Lockstep (R : σ → σ → Prop) (m : Prog σ τ ε α) : Prop :=
  ∀ w v, R w.state v.state → w.fates = v.fates → Lossless w.fates →
    (m w).1 = (m v).1 ∧ R (m w).2.state (m v).2.state ∧ (m w).2.fates = (m v).2.fates ∧
      Lossless (m w).2.fates

section Lockstep

variable {R : σ → σ → Prop}

theorem Lockstep.done (a : α) : Lockstep R (done a : Prog σ τ ε α) :=
  fun _ _ hR hf hl => ⟨rfl, hR, hf, hl⟩

theorem Lockstep.pure (a : α) : Lockstep R (pure a : Prog σ τ ε α) := Lockstep.done a

theorem Lockstep.fail (e : ε) : Lockstep R (fail e : Prog σ τ ε α) :=
  fun _ _ hR hf hl => ⟨rfl, hR, hf, hl⟩

theorem Lockstep.ofOutcome (o : Outcome ε α) : Lockstep R (ofOutcome o : Prog σ τ ε α) :=
  fun _ _ hR hf hl => ⟨rfl, hR, hf, hl⟩

theorem Lockstep.ofOption (e : ε) (o : Option α) : Lockstep R (ofOption e o : Prog σ τ ε α) := by
  cases o with
  | none => exact Lockstep.fail e
  | some a => exact Lockstep.done a

theorem Lockstep.probe {t : τ} {f : σ → α} (hf : ∀ s s', R s s' → f s = f s') :
    Lockstep R (probe t f : Prog σ τ ε α) :=
  fun _ _ hR hfs hl => ⟨congrArg Outcome.ok (hf _ _ hR), hR, hfs, hl⟩

theorem Lockstep.sysCall {t : τ} {io : ε} {act : List ℕ → σ → Option α × σ}
    {onFail onKill : ℕ → σ → σ}
    (hact : ∀ s s', R s s' → (act [] s).1 = (act [] s').1 ∧ R (act [] s).2 (act [] s').2)
    (hfail : ∀ cut s s', R s s' → R (onFail cut s) (onFail cut s'))
    (hkill : ∀ cut s s', R s s' → R (onKill cut s) (onKill cut s')) :
    Lockstep R (sysCall t io act onFail onKill) := by
  intro w v hR hf hl
  rw [Prog.sysCall, Prog.sysCall, ← hf]
  rcases hh : w.fates.headD .ok with _ | cut | cut | lost
  · obtain ⟨h1, h2⟩ := hact _ _ hR
    exact ⟨congrArg (answer io) h1, h2, rfl, hl.tail⟩
  · exact ⟨rfl, hfail cut _ _ hR, rfl, hl.tail⟩
  · exact ⟨rfl, hkill cut _ _ hR, rfl, hl.tail⟩
  · cases hw : w.fates with
    | nil => rw [hw] at hh; simp at hh
    | cons f fs =>
      rw [hw, List.headD_cons] at hh
      exact absurd (by rw [hw, hh]; simp) (hl lost)

/-- Every call keeps step with itself. -/
theorem Lockstep.sysCall_self {t : τ} {io : ε} {act : List ℕ → σ → Option α × σ} {onFail onKill : ℕ → σ → σ} :
    Lockstep (· = ·) (Prog.sysCall t io act onFail onKill) := by
  apply Lockstep.sysCall
  · rintro s _ rfl
    exact ⟨rfl, rfl⟩
  · rintro cut s _ rfl
    rfl
  · rintro cut s _ rfl
    rfl

theorem Lockstep.mapErr {ε' : Type} {f : ε → ε'} {m : Prog σ τ ε α} (hm : Lockstep R m) :
    Lockstep R (mapErr f m) := by
  intro w v hR hf hl
  obtain ⟨h1, h2⟩ := hm w v hR hf hl
  exact ⟨congrArg (Outcome.mapErr f) h1, h2⟩

theorem Lockstep.attempt {ε' : Type} {m : Prog σ τ ε α} (hm : Lockstep R m) :
    Lockstep R (attempt m : Prog σ τ ε' (Except ε α)) := by
  intro w v hR hf hl
  obtain ⟨h1, h2, h3, h4⟩ := hm w v hR hf hl
  rw [Prog.attempt, Prog.attempt]
  rcases hw : m w with ⟨o, w'⟩
  rcases hv : m v with ⟨o', v'⟩
  rw [hw] at h1 h2 h3 h4
  rw [hv] at h1 h2 h3
  obtain rfl : o = o' := h1
  rcases o with a | e | _ | _
  all_goals exact ⟨rfl, h2, h3, h4⟩

/-- What comes after a program need only keep step for the results the program has. -/
theorem Lockstep.bind {m : Prog σ τ ε α} {f : α → Prog σ τ ε β} (hm : Lockstep R m)
    (hf : ∀ a, (∃ w, (m w).1 = .ok a) → Lockstep R (f a)) : Lockstep R (m >>= f) := by
  intro w v hR hfs hl
  obtain ⟨h1, h2, h3, h4⟩ := hm w v hR hfs hl
  rw [andThen_run, andThen_run, ← h1]
  rcases ho : (m w).1 with a | e | _ | _
  · exact hf a ⟨w, ho⟩ _ _ h2 h3 h4
  all_goals exact ⟨rfl, h2, h3, h4⟩

theorem Lockstep.mapM {f : α → Prog σ τ ε β} {l : List α} (hf : ∀ a ∈ l, Lockstep R (f a)) :
    Lockstep R (l.mapM f) := by
  induction l with
  | nil => rw [List.mapM_nil]; exact Lockstep.pure _
  | cons a l ih =>
    rw [List.mapM_cons]
    exact (hf a (by simp)).bind fun b _ =>
      (ih fun x hx => hf x (by simp [hx])).bind fun bs _ => Lockstep.pure _

theorem Lockstep.eval {m : Prog σ τ ε α} (hm : Lockstep R m) {s s' : σ} (h : R s s') :
    m.eval s = m.eval s' := (hm ⟨s, [], []⟩ ⟨s', [], []⟩ h rfl Lossless.nil).1

/-- A program that keeps step with itself does not look at the log. -/
theorem Lockstep.run_log {m : Prog σ τ ε α} (hm : Lockstep (· = ·) m) {s : σ} {fates : List Fate} {log : List τ}
    (hl : Lossless fates) {o : Outcome ε α} {w' : World σ τ} (h : m ⟨s, fates, log⟩ = (o, w')) (log' : List τ) :
    ∃ w'', m ⟨s, fates, log'⟩ = (o, w'') ∧ w''.state = w'.state := by
  obtain ⟨h1, h2, -⟩ := hm ⟨s, fates, log⟩ ⟨s, fates, log'⟩ rfl rfl hl
  rw [h] at h1 h2
  exact ⟨(m ⟨s, fates, log'⟩).2, Prod.ext h1.symm rfl, h2.symm⟩

end Lockstep

/-! ### Which errors a program ends in -/

/-- Every error `m` ends in satisfies `P`. -/
def Raises (P : ε → Prop) (m : Prog σ τ ε α) : Prop := ∀ w e, (m w).1 = .err e → P e

section Raises

variable {P : ε → Prop}

theorem Raises.done (a : α) : Raises P (done a : Prog σ τ ε α) := by
  intro w e h
  simp at h

theorem Raises.pure (a : α) : Raises P (pure a : Prog σ τ ε α) := Raises.done a

theorem Raises.fail {e : ε} (he : P e) : Raises P (fail e : Prog σ τ ε α) := by
  intro w e' h
  rw [fail_run, Outcome.err.injEq] at h
  exact h ▸ he

theorem Raises.panic : Raises P (ofOutcome .panic : Prog σ τ ε α) := by
  intro w e h
  simp [ofOutcome] at h

theorem Raises.ofOption {e : ε} (he : P e) (o : Option α) : Raises P (ofOption e o : Prog σ τ ε α) := by
  cases o with
  | none => exact Raises.fail he
  | some a => exact Raises.done a

theorem Raises.sysCall {t : τ} {io : ε} {act : List ℕ → σ → Option α × σ} {onFail onKill : ℕ → σ → σ}
    (he : P io) : Raises P (sysCall t io act onFail onKill) := by
  have hanswer : ∀ (x : Option α) e, answer io x = .err e → P e := by
    intro x e h
    cases x with
    | none => rw [answer, Outcome.err.injEq] at h; exact h ▸ he
    | some a => simp [answer] at h
  intro w e h
  rw [Prog.sysCall] at h
  rcases hf : w.fates.headD .ok with _ | cut | cut | lost <;> rw [hf] at h
  · exact hanswer _ e h
  · rw [Outcome.err.injEq] at h
    exact h ▸ he
  · simp at h
  · exact hanswer _ e h

theorem Raises.bind {m : Prog σ τ ε α} {f : α → Prog σ τ ε β} (hm : Raises P m)
    (hf : ∀ a, Raises P (f a)) : Raises P (m >>= f) := by
  intro w e h
  rw [andThen_run] at h
  rcases hmw : (m w).1 with a | e' | _ | _ <;> rw [hmw] at h
  · exact hf a _ e h
  · simp only [castStop, Outcome.err.injEq] at h
    exact hm w e (by rw [hmw, h])
  · simp [castStop] at h
  · simp [castStop] at h

end Raises

/-! ### Programs that never panic -/

/-- Whatever befalls it, `m` does not panic. -/
def NoPanic (m : Prog σ τ ε α) : Prop := ∀ w, (m w).1 ≠ .panic

theorem NoPanic.pure (a : α) : NoPanic (pure a : Prog σ τ ε α) := fun w h => by simp at h

theorem NoPanic.fail (e : ε) : NoPanic (fail e : Prog σ τ ε α) := fun w h => by simp at h

theorem NoPanic.ofOption (e : ε) (o : Option α) : NoPanic (ofOption e o : Prog σ τ ε α) := by
  cases o with
  | none => exact NoPanic.fail e
  | some a => exact NoPanic.pure a

theorem NoPanic.ofExcept (x : Except ε α) : NoPanic (ofOutcome (.ofExcept x) : Prog σ τ ε α) := by
  intro w h
  cases x <;> simp [ofOutcome, Outcome.ofExcept] at h

theorem NoPanic.probe (t : τ) (f : σ → α) : NoPanic (probe t f : Prog σ τ ε α) := fun w h => by
  simp [Prog.probe] at h

theorem NoPanic.sysCall {t : τ} {io : ε} {act : List ℕ → σ → Option α × σ} {onFail onKill : ℕ → σ → σ} :
    NoPanic (sysCall t io act onFail onKill) := by
  have hanswer : ∀ x : Option α, answer io x ≠ .panic := by
    intro x
    cases x <;> simp [answer]
  intro w
  rw [Prog.sysCall]
  rcases w.fates.headD .ok with _ | cut | cut | lost
  · exact hanswer _
  · simp
  · simp
  · exact hanswer _

theorem NoPanic.bind {m : Prog σ τ ε α} {f : α → Prog σ τ ε β} (hm : NoPanic m) (hf : ∀ a, NoPanic (f a)) :
    NoPanic (m >>= f) := by
  intro w h
  rw [andThen_run] at h
  rcases hmw : (m w).1 with a | e | _ | _ <;> rw [hmw] at h
  · exact hf a _ h
  · simp [castStop] at h
  · exact hm w hmw
  · simp [castStop] at h

theorem NoPanic.mapErr {ε' : Type} {f : ε → ε'} {m : Prog σ τ ε α} (hm : NoPanic m) : NoPanic (mapErr f m) := by
  intro w h
  rw [Prog.mapErr] at h
  rcases hmw : (m w).1 with a | e | _ | _ <;> rw [hmw] at h <;> simp [Outcome.mapErr] at h
  exact hm w hmw

theorem NoPanic.attempt {ε' : Type} {m : Prog σ τ ε α} (hm : NoPanic m) :
    NoPanic (attempt m : Prog σ τ ε' (Except ε α)) := by
  intro w h
  rw [Prog.attempt] at h
  rcases hmw : m w with ⟨a | e | _ | _, w'⟩ <;> rw [hmw] at h <;> simp at h
  exact hm w (by rw [hmw])

/-! ### What a program leaves behind -/

/-- `m` leaves the state alone, however it ends and whether or not it can tell a fault from an answer. -/
structure Still (m : Prog σ τ ε α) : Prop where
  state : ∀ w, (m w).2.state = w.state
  lossless : ∀ w, Lossless w.fates → Lossless (m w).2.fates

theorem Reader.still {m : Prog σ τ ε α} (hm : Reader m) : Still m := ⟨hm.state, hm.lossless⟩

theorem Still.attempt {ε' : Type} {m : Prog σ τ ε α} (hm : Still m) :
    Still (attempt m : Prog σ τ ε' (Except ε α)) := by
  have hsame : ∀ w, ((Prog.attempt m : Prog σ τ ε' (Except ε α)) w).2 = (m w).2 := by
    intro w
    rw [Prog.attempt]
    rcases m w with ⟨_ | _ | _ | _, w'⟩
    all_goals rfl
  exact ⟨fun w => by rw [hsame]; exact hm.state w, fun w h => by rw [hsame]; exact hm.lossless w h⟩

/-- As long as no listing loses entries, the state `m` leaves is related to the one it found, however it ends. -/
def Leaves (R : σ → σ → Prop) (m : Prog σ τ ε α) : Prop := ∀ w, Lossless w.fates → R w.state (m w).2.state

variable {R : σ → σ → Prop}

theorem Still.leaves (hR : ∀ s, R s s) {m : Prog σ τ ε α} (hm : Still m) : Leaves R m := by
  intro w _
  rw [hm.state]
  exact hR _

theorem Leaves.mapErr {ε' : Type} {f : ε → ε'} {m : Prog σ τ ε α} (hm : Leaves R m) : Leaves R (mapErr f m) := hm

/-- Nothing is changed before `f`. -/
theorem Still.bind_leaves (hR : ∀ s, R s s) {m : Prog σ τ ε α} {f : α → Prog σ τ ε β} (hm : Still m)
    (hf : ∀ a, (∃ w, (m w).1 = .ok a) → Leaves R (f a)) : Leaves R (m >>= f) := by
  intro w hl
  rw [andThen_run]
  rcases ho : (m w).1 with a | e | _ | _
  · have h := hf a ⟨w, ho⟩ (m w).2 (hm.lossless w hl)
    rwa [hm.state] at h
  all_goals
    show R w.state (m w).2.state
    rw [hm.state]
    exact hR _

/-- Nothing is changed after `m`. -/
theorem bind_still_state (m : Prog σ τ ε α) {f : α → Prog σ τ ε β} (hf : ∀ a, Still (f a)) (w : World σ τ) :
    ((m >>= f) w).2.state = (m w).2.state := by
  rw [andThen_run]
  rcases (m w).1 with a | e | _ | _
  · exact (hf a).state _
  all_goals rfl

theorem Leaves.bind_still {m : Prog σ τ ε α} {f : α → Prog σ τ ε β} (hm : Leaves R m) (hf : ∀ a, Still (f a)) :
    Leaves R (m >>= f) := by
  intro w hl
  rw [bind_still_state m hf]
  exact hm w hl

/-! ### Errors before anything is changed -/

/-- When `m` ends in an error that satisfies `P`, it has changed nothing. -/
def TurnsAway (P : ε → Prop) (m : Prog σ τ ε α) : Prop := ∀ w e, (m w).1 = .err e → P e → (m w).2.state = w.state

variable {P : ε → Prop}

theorem Still.turnsAway {m : Prog σ τ ε α} (hm : Still m) : TurnsAway P m := fun w _ _ _ => hm.state w

theorem Raises.turnsAway {Q : ε → Prop} {m : Prog σ τ ε α} (hm : Raises Q m) (h : ∀ e, Q e → ¬ P e) :
    TurnsAway P m := fun w e he hP => absurd hP (h e (hm w e he))

theorem TurnsAway.mapErr {ε' : Type} {P : ε' → Prop} {f : ε → ε'} {m : Prog σ τ ε α}
    (hm : TurnsAway (fun e => P (f e)) m) : TurnsAway P (mapErr f m) := by
  intro w e he hP
  rw [Prog.mapErr] at he ⊢
  rcases ho : (m w).1 with a | d | _ | _ <;> rw [ho] at he
  · simp [Outcome.mapErr] at he
  · obtain rfl : f d = e := Outcome.err.inj he
    exact hm w d ho hP
  · simp [Outcome.mapErr] at he
  · simp [Outcome.mapErr] at he

theorem Still.bind_turnsAway {m : Prog σ τ ε α} {f : α → Prog σ τ ε β} (hm : Still m)
    (hf : ∀ a, TurnsAway P (f a)) : TurnsAway P (m >>= f) := by
  intro w e he hP
  rw [andThen_run] at he ⊢
  rcases ho : (m w).1 with a | d | _ | _
  · rw [ho] at he
    exact (hf a _ e he hP).trans (hm.state w)
  all_goals exact hm.state w

theorem TurnsAway.bind_pure {m : Prog σ τ ε α} {g : α → β} (hm : TurnsAway P m) :
    TurnsAway P (m >>= fun a => pure (g a)) := by
  intro w e he hP
  rw [andThen_run] at he ⊢
  rcases ho : (m w).1 with a | d | _ | _ <;> rw [ho] at he
  · simp at he
  · exact hm w d ho (Outcome.err.inj he ▸ hP)
  · simp [castStop] at he
  · simp [castStop] at he

end Prog

end SxtEnterprise.FaultyRun
