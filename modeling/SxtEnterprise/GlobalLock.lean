import Mathlib

/-!
# Requests that share one lock

Each of a family of requests works on its own until it needs the shared state, then holds a lock on it for one
stretch, then works on its own again.  `advance` lets one of them move on; a schedule says which one each time, so
that a statement for every schedule is one for every interleaving.  What the model takes from the lock is only that
a stretch is one step.  The state also notes in which order the lock was held.

* `Linearized`: the shared state is the one that the requests in lock order, each from its beginning to its end,
  lead to, and what a request took away is what it takes away there.
* `linearized_advance`, `linearized_interleave`: one step keeps this, and so does a schedule.
* `order_prefix`: the lock order only grows, so a request that is done comes before all that have not begun.
* `Linearized.serve_all`: when all requests are answered, some order of *all* of them gives the same replies and
  state.
-/

namespace SxtEnterprise.GlobalLock

/-- A request: it is answered at once, or holds the lock and makes a reply of what it took away. -/
structure Request (S K R : Type) where
  before : R ⊕ (S → K × S)
  after : K → R

/-- How far a request has come. -/
inductive Phase (S K R : Type) where
  | start
  | waiting (locked : S → K × S)
  | left (k : K)
  | replied (r : R)

/-- The reply, if there is one. -/
def Phase.reply {S K R : Type} : Phase S K R → Option R
  | .replied r => some r
  | _ => none

theorem Phase.reply_eq_some {S K R : Type} {p : Phase S K R} {r : R} : p.reply = some r ↔ p = .replied r := by
  cases p <;> simp [Phase.reply]

/-- The shared state, how far every request has come, and which requests held the lock so far, in order. -/
structure State {ι : Type} (S R : Type) (K : ι → Type) where
  shared : S
  phase : ∀ i, Phase S (K i) R
  order : List ι

/-- A request on its own. -/
def Request.run {S K R : Type} (q : Request S K R) (s : S) : R × S :=
  match q.before with
  | .inl r => (r, s)
  | .inr locked => (q.after (locked s).1, (locked s).2)

variable {ι S R : Type} {K : ι → Type}

namespace State

/-- Nothing has begun. -/
def init (s : S) : State S R K := ⟨s, fun _ => .start, []⟩

variable [DecidableEq ι]

/-- One request has come further. -/
def set (st : State S R K) (i : ι) (p : Phase S (K i) R) : State S R K :=
  { st with phase := Function.update st.phase i p }

theorem set_self {st : State S R K} {i : ι} {p : Phase S (K i) R} : (st.set i p).phase i = p :=
  Function.update_self ..

theorem set_of_ne {st : State S R K} {i j : ι} {p : Phase S (K i) R} (h : j ≠ i) :
    (st.set i p).phase j = st.phase j :=
  Function.update_of_ne h ..

end State

section Serve

variable (reqs : ∀ i, Request S (K i) R)

/-- The requests of `order` one after the other: what each is answered, and the state they leave. -/
def serve (s : S) : List ι → List (ι × R) × S
  | [] => ([], s)
  | i :: order =>
    let done := (reqs i).run s
    let rest := serve done.2 order
    ((i, done.1) :: rest.1, rest.2)

theorem serve_append (s : S) (order order' : List ι) : serve reqs s (order ++ order') =
    ((serve reqs s order).1 ++ (serve reqs (serve reqs s order).2 order').1,
      (serve reqs (serve reqs s order).2 order').2) := by
  induction order generalizing s with
  | nil => rfl
  | cons i order ih =>
    show ((i, _) :: (serve reqs _ (order ++ order')).1, (serve reqs _ (order ++ order')).2) = _
    rw [ih]
    rfl

/-- Every reply is that of its request in the state left by those before it. -/
theorem mem_serve {s : S} {order : List ι} {i : ι} {r : R} : (i, r) ∈ (serve reqs s order).1 ↔
    ∃ pre post, order = pre ++ i :: post ∧ r = ((reqs i).run (serve reqs s pre).2).1 := by
  induction order generalizing s with
  | nil => simp [serve]
  | cons j order ih =>
    show (i, r) ∈ (j, ((reqs j).run s).1) :: (serve reqs ((reqs j).run s).2 order).1 ↔ _
    rw [List.mem_cons, ih, Prod.mk.injEq]
    constructor
    · rintro (⟨rfl, rfl⟩ | ⟨pre, post, rfl, rfl⟩)
      · exact ⟨[], order, rfl, rfl⟩
      · exact ⟨j :: pre, post, rfl, rfl⟩
    · rintro ⟨_ | ⟨j', pre⟩, post, horder, hr⟩
      · obtain ⟨rfl, rfl⟩ := List.cons.inj horder
        exact Or.inl ⟨rfl, hr⟩
      · obtain ⟨rfl, rfl⟩ := List.cons.inj horder
        exact Or.inr ⟨pre, post, rfl, hr⟩

/-- Requests answered at once leave the state alone. -/
theorem serve_state_of_inl {s : S} {order : List ι} (h : ∀ i ∈ order, ∃ r, (reqs i).before = .inl r) :
    (serve reqs s order).2 = s := by
  induction order with
  | nil => rfl
  | cons i order ih =>
    obtain ⟨r, hr⟩ := h i (by simp)
    have hrun : ((reqs i).run s).2 = s := by rw [Request.run, hr]
    show (serve reqs ((reqs i).run s).2 order).2 = s
    rw [hrun]
    exact ih fun j hj => h j (by simp [hj])

section Schedule

variable [DecidableEq ι]

/-- One request moves on, if it has not been answered. -/
def advance (st : State S R K) (i : ι) : State S R K :=
  match st.phase i with
  | .start =>
    match (reqs i).before with
    | .inl r => st.set i (.replied r)
    | .inr locked => st.set i (.waiting locked)
  | .waiting locked =>
    let done := locked st.shared
    { st.set i (.left done.1) with
      shared := done.2
      order := st.order ++ [i] }
  | .left k => st.set i (.replied ((reqs i).after k))
  | .replied _ => st

/-- The requests move on as the schedule says. -/
def interleave (st : State S R K) (schedule : List ι) : State S R K := schedule.foldl (advance reqs) st

theorem interleave_append (st : State S R K) (schedule schedule' : List ι) :
    interleave reqs st (schedule ++ schedule') = interleave reqs (interleave reqs st schedule) schedule' :=
  List.foldl_append

end Schedule

/-! ### The lock order serializes -/

section Phases

variable {K : Type} (q : Request S K R)

/-- How far a request can have come that has not held the lock. -/
inductive Unserved : Phase S K R → Prop
  | start : Unserved .start
  | waiting {locked : S → K × S} : q.before = .inr locked → Unserved (.waiting locked)
  | refused {r : R} : q.before = .inl r → Unserved (.replied r)

/-- How far a request can have come that held the lock when the shared state was `s`. -/
inductive Served (s : S) : Phase S K R → Prop
  | left {locked : S → K × S} : q.before = .inr locked → Served s (.left (locked s).1)
  | replied {locked : S → K × S} : q.before = .inr locked → Served s (.replied (q.after (locked s).1))

variable {q}

theorem Served.reply_eq {s : S} {r : R} (h : Served q s (.replied r)) : r = (q.run s).1 := by
  cases h with
  | replied hb => rw [Request.run, hb]

end Phases

/-- The lock order explains the state and what every request knows. -/
structure Linearized (s₀ : S) (st : State S R K) : Prop where
  nodup : st.order.Nodup
  shared : st.shared = (serve reqs s₀ st.order).2
  unserved : ∀ i ∉ st.order, Unserved (reqs i) (st.phase i)
  served : ∀ pre i post, st.order = pre ++ i :: post → Served (reqs i) (serve reqs s₀ pre).2 (st.phase i)

variable {reqs} {s₀ : S} {st : State S R K}

theorem linearized_init : Linearized reqs s₀ (State.init s₀) where
  nodup := List.nodup_nil
  shared := rfl
  unserved _ _ := .start
  served pre i post h := by simp [State.init] at h

/-- A request whose phase shows that it did not hold the lock is not in the order. -/
theorem Linearized.notMem (h : Linearized reqs s₀ st) {i : ι} (hi : ∀ s, ¬ Served (reqs i) s (st.phase i)) :
    i ∉ st.order := by
  intro hmem
  obtain ⟨pre, post, horder⟩ := List.append_of_mem hmem
  exact hi _ (h.served pre i post horder)

theorem Linearized.notMem_of_start (h : Linearized reqs s₀ st) {i : ι} (hi : st.phase i = .start) :
    i ∉ st.order := by
  apply h.notMem
  rw [hi]
  rintro s ⟨⟩

theorem Linearized.of_waiting (h : Linearized reqs s₀ st) {i : ι} {locked : S → K i × S}
    (hi : st.phase i = .waiting locked) : i ∉ st.order ∧ (reqs i).before = .inr locked := by
  have hnot : i ∉ st.order := by
    apply h.notMem
    rw [hi]
    rintro s ⟨⟩
  have hun := h.unserved i hnot
  rw [hi] at hun
  cases hun with
  | waiting hb => exact ⟨hnot, hb⟩

variable [DecidableEq ι]

/-- A request that moves on outside the lock. -/
theorem Linearized.set (h : Linearized reqs s₀ st) {i : ι} {p : Phase S (K i) R}
    (hun : i ∉ st.order → Unserved (reqs i) p)
    (hse : ∀ s, Served (reqs i) s (st.phase i) → Served (reqs i) s p) : Linearized reqs s₀ (st.set i p) where
  nodup := h.nodup
  shared := h.shared
  unserved j hj := by
    by_cases hij : j = i
    · subst hij
      rw [State.set_self]
      exact hun hj
    · rw [State.set_of_ne hij]
      exact h.unserved j hj
  served pre j post horder := by
    by_cases hij : j = i
    · subst hij
      rw [State.set_self]
      exact hse _ (h.served pre j post horder)
    · rw [State.set_of_ne hij]
      exact h.served pre j post horder

/-- A request that holds the lock. -/
theorem Linearized.hold (h : Linearized reqs s₀ st) {i : ι} {locked : S → K i × S}
    (hp : st.phase i = .waiting locked) : Linearized reqs s₀ { st.set i (.left (locked st.shared).1) with
      shared := (locked st.shared).2
      order := st.order ++ [i] } := by
  obtain ⟨hnot, hb⟩ := h.of_waiting hp
  have hne : ∀ {j}, j ∈ st.order → j ≠ i := by
    rintro j hj rfl
    exact hnot hj
  refine ⟨?_, ?_, ?_, ?_⟩
  · show (st.order ++ [i]).Nodup
    rw [List.nodup_append]
    refine ⟨h.nodup, List.nodup_singleton i, fun a ha b hb => ?_⟩
    rw [List.mem_singleton.mp hb]
    exact hne ha
  · show (locked st.shared).2 = (serve reqs s₀ (st.order ++ [i])).2
    rw [serve_append, ← h.shared]
    show _ = ((reqs i).run st.shared).2
    rw [Request.run, hb]
  · intro j hj
    have hj' : j ∉ st.order ∧ j ≠ i := by simpa using (show j ∉ st.order ++ [i] from hj)
    show Unserved _ ((st.set i _).phase j)
    rw [State.set_of_ne hj'.2]
    exact h.unserved j hj'.1
  · intro pre j post horder
    change st.order ++ [i] = pre ++ j :: post at horder
    show Served _ _ ((st.set i _).phase j)
    rcases List.eq_nil_or_concat post with rfl | ⟨post, j', rfl⟩
    · -- the request that just held the lock
      obtain ⟨hpre, hj⟩ := List.append_inj' horder rfl
      obtain rfl : i = j := by simpa using hj
      rw [State.set_self, ← hpre, ← h.shared]
      exact .left hb
    · -- one that held it before
      have hsplit : st.order ++ [i] = (pre ++ j :: post) ++ [j'] := by rw [horder]; simp
      obtain ⟨hpre, -⟩ := List.append_inj' hsplit rfl
      rw [State.set_of_ne (hne (by rw [hpre]; simp))]
      exact h.served pre j post hpre

/-- **One step keeps the lock order an explanation.** -/
theorem linearized_advance (h : Linearized reqs s₀ st) (i : ι) : Linearized reqs s₀ (advance reqs st i) := by
  rw [advance]
  rcases hp : st.phase i with _ | locked | k | r
  · show Linearized reqs s₀ (match (reqs i).before with
      | .inl r => st.set i (.replied r)
      | .inr locked => st.set i (.waiting locked))
    have hse : ∀ {p} s, Served (reqs i) s (st.phase i) → Served (reqs i) s p := by
      rw [hp]
      rintro p s ⟨⟩
    rcases hb : (reqs i).before with r | locked
    · exact h.set (fun _ => .refused hb) hse
    · exact h.set (fun _ => .waiting hb) hse
  · exact h.hold hp
  · apply h.set
    · intro hnot
      have hun := h.unserved i hnot
      rw [hp] at hun
      cases hun
    · intro s hs
      rw [hp] at hs
      cases hs with
      | left hb => exact .replied hb
  · exact h

/-- **And so does a schedule.** -/
theorem linearized_interleave (h : Linearized reqs s₀ st) (schedule : List ι) :
    Linearized reqs s₀ (interleave reqs st schedule) := by
  induction schedule generalizing st with
  | nil => exact h
  | cons i schedule ih => exact ih (linearized_advance h i)

theorem order_advance (st : State S R K) (i : ι) : st.order <+: (advance reqs st i).order := by
  rw [advance]
  rcases st.phase i with _ | locked | k | r
  · rcases hb : (reqs i).before with r | locked
    all_goals exact List.prefix_refl _
  · exact List.prefix_append _ _
  · exact List.prefix_refl _
  · exact List.prefix_refl _

/-- **Real time**: what held the lock by now stays before what holds it later. -/
theorem order_prefix (st : State S R K) (schedule : List ι) : st.order <+: (interleave reqs st schedule).order := by
  induction schedule generalizing st with
  | nil => exact List.prefix_refl _
  | cons i schedule ih => exact (order_advance st i).trans (ih _)

/-- **A request comes after all that held the lock before it did.** -/
theorem prefix_before {st : State S R K} {schedule : List ι} {i : ι} {pre post : List ι} (hnot : i ∉ st.order)
    (h : (interleave reqs st schedule).order = pre ++ i :: post) : st.order <+: pre := by
  have hall : st.order <+: pre ++ i :: post := h ▸ order_prefix st schedule
  rcases Nat.lt_or_ge pre.length st.order.length with hlt | hle
  · have hone : pre ++ [i] <+: st.order :=
      List.prefix_of_prefix_length_le ((List.prefix_append_right_inj pre).mpr ⟨post, rfl⟩) hall (by simpa using hlt)
    exact absurd (hone.subset (by simp)) hnot
  · exact List.prefix_of_prefix_length_le hall (List.prefix_append _ _) hle

/-! ### What a request was answered -/

/-- **A reply is the one a serial run gives**: right after those that held the lock before it, or at any time if it
never needed the lock. -/
theorem Linearized.reply (h : Linearized reqs s₀ st) {i : ι} {r : R} (hr : st.phase i = .replied r) :
    (i ∉ st.order ∧ (reqs i).before = .inl r) ∨
      ∃ pre post, st.order = pre ++ i :: post ∧ r = ((reqs i).run (serve reqs s₀ pre).2).1 := by
  by_cases hi : i ∈ st.order
  · obtain ⟨pre, post, horder⟩ := List.append_of_mem hi
    have hse := h.served pre i post horder
    rw [hr] at hse
    exact Or.inr ⟨pre, post, horder, hse.reply_eq⟩
  · have hun := h.unserved i hi
    rw [hr] at hun
    cases hun with
    | refused hb => exact Or.inl ⟨hi, hb⟩

/-- **All requests answered**: one after the other, in an order that begins with the lock's, they give the same
replies and leave the same state. -/
theorem Linearized.serve_all (h : Linearized reqs s₀ st) {requests : List ι} (hnd : requests.Nodup)
    (hall : ∀ i ∈ requests, ∃ r, st.phase i = .replied r) (hrest : ∀ i ∉ requests, st.phase i = .start) :
    ∃ total, st.order <+: total ∧ total.Perm requests ∧ (serve reqs s₀ total).2 = st.shared ∧
      ∀ i r, (i, r) ∈ (serve reqs s₀ total).1 ↔ st.phase i = .replied r := by
  have hsub : ∀ i ∈ st.order, i ∈ requests := by
    intro i hi
    by_contra hout
    exact h.notMem_of_start (hrest i hout) hi
  let others := requests.filter (· ∉ st.order)
  have hothers : ∀ i ∈ others, ∃ r, (reqs i).before = .inl r ∧ st.phase i = .replied r := by
    intro i hi
    rw [List.mem_filter, decide_eq_true_eq] at hi
    obtain ⟨r, hr⟩ := hall i hi.1
    rcases h.reply hr with ⟨-, hb⟩ | ⟨pre, post, horder, -⟩
    · exact ⟨r, hb, hr⟩
    · exact absurd (by rw [horder]; simp) hi.2
  have hperm : (st.order ++ others).Perm requests := by
    refine (List.perm_ext_iff_of_nodup ?_ hnd).mpr fun i => ?_
    · rw [List.nodup_append]
      refine ⟨h.nodup, hnd.filter _, ?_⟩
      rintro a ha b hb rfl
      rw [List.mem_filter, decide_eq_true_eq] at hb
      exact hb.2 ha
    · rw [List.mem_append, List.mem_filter, decide_eq_true_eq]
      constructor
      · rintro (hi | hi)
        · exact hsub i hi
        · exact hi.1
      · intro hi
        by_cases hmem : i ∈ st.order
        · exact Or.inl hmem
        · exact Or.inr ⟨hi, hmem⟩
  have hreply : ∀ i r, (i, r) ∈ (serve reqs s₀ (st.order ++ others)).1 → st.phase i = .replied r := by
    intro i r hir
    have hi : i ∈ st.order ++ others := by
      obtain ⟨pre, post, htotal, -⟩ := (mem_serve reqs).mp hir
      rw [htotal]
      simp
    rw [serve_append, List.mem_append] at hir
    obtain ⟨r', hr'⟩ := hall i (hperm.mem_iff.mp hi)
    rcases hir with hir | hir
    · obtain ⟨pre, post, horder, rfl⟩ := (mem_serve reqs).mp hir
      have hse := h.served pre i post horder
      rw [hr'] at hse
      rw [hr', hse.reply_eq]
    · obtain ⟨pre, post, hsplit, rfl⟩ := (mem_serve reqs).mp hir
      obtain ⟨r'', hb, hp⟩ := hothers i (by rw [hsplit]; simp)
      rw [hp, Request.run, hb]
  refine ⟨st.order ++ others, List.prefix_append _ _, hperm, ?_, fun i r => ⟨hreply i r, fun hp => ?_⟩⟩
  · rw [serve_append, ← h.shared]
    exact serve_state_of_inl reqs fun i hi => (hothers i hi).imp fun r hr => hr.1
  · have hi : i ∈ requests := by
      by_contra hout
      rw [hrest i hout] at hp
      simp at hp
    obtain ⟨pre, post, htotal⟩ := List.append_of_mem (hperm.mem_iff.mpr hi)
    have hmem := (mem_serve reqs (s := s₀)).mpr ⟨pre, post, htotal, rfl⟩
    rw [hreply i _ hmem, Phase.replied.injEq] at hp
    exact hp ▸ hmem

end Serve

end SxtEnterprise.GlobalLock
