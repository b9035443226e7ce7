import SxtEnterprise.FaultyRun

/-!
# Converting lists element by element

`mapM` in a monad of computations that may yield nothing.  `Yields` is what all of them share: a relation
between computations and what they yield that respects `pure` and `>>=`.  A list then converts to a list
exactly when its elements convert one by one.
-/

namespace SxtEnterprise

open FaultyRun

/-- A notion of what a computation yields. -/
structure Yields {m : Type → Type} [Monad m] (yields : ∀ α : Type, m α → α → Prop) : Prop where
  pure_iff : ∀ {α : Type} {a b : α}, yields α (pure a) b ↔ a = b
  bind_iff : ∀ {α β : Type} {x : m α} {f : α → m β} {b : β},
    yields β (x >>= f) b ↔ ∃ a, yields α x a ∧ yields β (f a) b

/-- **A list converts when each of its elements does.** -/
theorem Yields.mapM_iff {m : Type → Type} [Monad m] [LawfulMonad m] {yields : ∀ α : Type, m α → α → Prop}
    (h : Yields yields) {α β : Type} {f : α → m β} {l : List α} {bs : List β} :
    yields _ (l.mapM f) bs ↔ List.Forall₂ (fun a b => yields _ (f a) b) l bs := by
  induction l generalizing bs with
  | nil => rw [List.mapM_nil, h.pure_iff, List.forall₂_nil_left_iff, eq_comm]
  | cons a l ih =>
    rw [List.mapM_cons, h.bind_iff, List.forall₂_cons_left_iff]
    simp only [h.bind_iff, h.pure_iff, ih]
    constructor
    · rintro ⟨b, hb, bs', hbs, rfl⟩
      exact ⟨b, bs', hb, hbs, rfl⟩
    · rintro ⟨b, bs', hb, hbs, rfl⟩
      exact ⟨b, hb, bs', hbs, rfl⟩

section Monads

variable {ε α β : Type} {l : List α} {bs : List β}

theorem option_yields : Yields fun α (x : Option α) a => x = some a :=
  ⟨by simp, fun {_ _ x _ _} => by cases x <;> simp⟩

theorem except_yields : Yields fun α (x : Except ε α) a => x = .ok a :=
  ⟨by simp [pure, Except.pure], fun {_ _ x _ _} => by cases x <;> simp [bind, Except.bind]⟩

theorem outcome_yields : Yields fun α (x : Outcome ε α) a => x = .ok a := ⟨Outcome.pure_eq_ok, Outcome.bind_eq_ok⟩

theorem mapM_eq_some_iff {f : α → Option β} :
    l.mapM f = some bs ↔ List.Forall₂ (fun a b => f a = some b) l bs := option_yields.mapM_iff

theorem exists_mapM_iff {f : α → Option β} : (∃ bs, l.mapM f = some bs) ↔ ∀ a ∈ l, ∃ b, f a = some b := by
  induction l with
  | nil => simp
  | cons a l ih =>
    simp only [List.mapM_cons, Option.bind_eq_bind, Option.bind_eq_some_iff, Option.pure_def, Option.some.injEq,
      List.forall_mem_cons, ← ih]
    constructor
    · rintro ⟨_, b, hb, bs, hbs, -⟩
      exact ⟨⟨b, hb⟩, bs, hbs⟩
    · rintro ⟨⟨b, hb⟩, bs, hbs⟩
      exact ⟨_, b, hb, bs, hbs, rfl⟩

theorem mapM_take {f : α → Option β} (h : l.mapM f = some bs) (j : ℕ) :
    (l.take j).mapM f = some (bs.take j) :=
  mapM_eq_some_iff.mpr (List.forall₂_take j (mapM_eq_some_iff.mp h))

theorem mapM_eq_ok_iff {f : α → Except ε β} :
    l.mapM f = .ok bs ↔ List.Forall₂ (fun a b => f a = .ok b) l bs := except_yields.mapM_iff

theorem outcome_mapM_eq_ok_iff {f : α → Outcome ε β} :
    l.mapM f = .ok bs ↔ List.Forall₂ (fun a b => f a = .ok b) l bs := outcome_yields.mapM_iff

theorem exists_forall₂ {R : α → β → Prop} (h : ∀ a ∈ l, ∃ b, R a b) : ∃ bs, List.Forall₂ R l bs := by
  induction l with
  | nil => exact ⟨[], .nil⟩
  | cons a l ih =>
    obtain ⟨b, hb⟩ := h a List.mem_cons_self
    obtain ⟨bs, hbs⟩ := ih fun x hx => h x (List.mem_cons_of_mem a hx)
    exact ⟨b :: bs, .cons hb hbs⟩

theorem exists_of_forall₂_left {R : α → β → Prop} (h : List.Forall₂ R l bs) {a : α} (ha : a ∈ l) : ∃ b ∈ bs, R a b := by
  induction h with
  | nil => simp at ha
  | cons hone _ ih =>
    rcases List.mem_cons.mp ha with rfl | ha
    · exact ⟨_, List.mem_cons_self, hone⟩
    · obtain ⟨b, hb, hR⟩ := ih ha
      exact ⟨b, List.mem_cons_of_mem _ hb, hR⟩

theorem exists_of_forall₂_right {R : α → β → Prop} (h : List.Forall₂ R l bs) {b : β} (hb : b ∈ bs) : ∃ a ∈ l, R a b :=
  exists_of_forall₂_left h.flip hb

/-- Keyed values converted one by one are the conversions under the same keys. -/
theorem forall₂_zip {κ κ' : Type} {R : κ → α → Prop} (f : κ → κ') (G : α → β → Prop) {ks : List κ} {as : List α}
    {out : List (κ' × β)} (h : List.Forall₂ R ks as)
    (hout : List.Forall₂ (fun e o => o.1 = f e.1 ∧ G e.2 o.2) (ks.zip as) out) :
    ∃ bs, List.Forall₂ (fun k b => ∃ a, R k a ∧ G a b) ks bs ∧ out = (ks.map f).zip bs := by
  induction h generalizing out with
  | nil => exact ⟨[], .nil, List.forall₂_nil_left_iff.mp hout⟩
  | cons hone _ ih =>
    obtain ⟨⟨k, b⟩, rest, ⟨rfl, hb⟩, hrest, rfl⟩ := List.forall₂_cons_left_iff.mp hout
    obtain ⟨bs, hbs, rfl⟩ := ih hrest
    exact ⟨b :: bs, .cons ⟨_, hone, hb⟩ hbs, rfl⟩

/-- The error of a conversion is that of one of the elements. -/
theorem mapM_eq_error {f : α → Except ε β} {e : ε} (h : l.mapM f = .error e) : ∃ a ∈ l, f a = .error e := by
  induction l with
  | nil => simp [pure, Except.pure] at h
  | cons a l ih =>
    rw [List.mapM_cons] at h
    rcases ha : f a with e' | b
    · obtain rfl : e' = e := by simpa [ha, bind, Except.bind] using h
      exact ⟨a, by simp, ha⟩
    · rcases hl : l.mapM f with e' | bs
      · obtain rfl : e' = e := by simpa [ha, hl, bind, Except.bind] using h
        obtain ⟨x, hx, hfx⟩ := ih hl
        exact ⟨x, by simp [hx], hfx⟩
      · simp [ha, hl, bind, Except.bind, pure, Except.pure] at h

end Monads

end SxtEnterprise
