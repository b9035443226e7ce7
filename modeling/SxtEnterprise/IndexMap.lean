import Mathlib

/-!
# Maps that remember the order of insertion

`IndexMap κ α` is a list of entries with distinct keys.  Inserting under a key that is there replaces
the value in place, so collecting a list of pairs keeps the first position and the last value of each
key.
-/

namespace SxtEnterprise

/-- A map with its keys in order of insertion. -/
structure IndexMap (κ α : Type) where
  entries : List (κ × α)
  nodup : (entries.map Prod.fst).Nodup

deriving instance DecidableEq for IndexMap

namespace IndexMap

variable {κ α : Type} [DecidableEq κ]

/-- The empty map. -/
def empty : IndexMap κ α := ⟨[], List.nodup_nil⟩

/-- The value under `k`. -/
def lookup (m : IndexMap κ α) (k : κ) : Option α := (m.entries.find? fun e => e.1 = k).map Prod.snd

/-- The keys, in order of insertion. -/
def keys (m : IndexMap κ α) : List κ := m.entries.map Prod.fst

/-- `v` under `k`, in place if `k` is there. -/
def insert (m : IndexMap κ α) (k : κ) (v : α) : IndexMap κ α :=
  if h : k ∈ m.keys then
    ⟨m.entries.map fun e => if e.1 = k then (k, v) else e, by
      rw [List.map_map, show (m.entries.map (Prod.fst ∘ fun e => if e.1 = k then (k, v) else e))
        = m.entries.map Prod.fst from List.map_congr_left fun e _ => by
          rw [Function.comp_apply]; split
          · rename_i he; exact he.symm
          · rfl]
      exact m.nodup⟩
  else
    ⟨m.entries ++ [(k, v)], by
      rw [List.map_append, List.nodup_append]
      refine ⟨m.nodup, List.nodup_singleton _, ?_⟩
      intro a ha b hb
      rw [List.map_singleton, List.mem_singleton] at hb
      subst hb
      rintro rfl
      exact h ha⟩

/-- `collect`: every pair inserted, from the first to the last. -/
def collect (l : List (κ × α)) : IndexMap κ α := l.foldl (fun m e => m.insert e.1 e.2) empty

theorem lookup_insert (m : IndexMap κ α) (k k' : κ) (v : α) :
    (m.insert k v).lookup k' = if k' = k then some v else m.lookup k' := by
  rw [insert]
  split
  · rename_i hmem
    simp only [lookup, List.find?_map]
    by_cases hk : k' = k
    · subst hk
      rw [if_pos rfl]
      have hfind : ∀ l : List (κ × α), k' ∈ l.map Prod.fst →
          (Option.map Prod.snd (Option.map (fun e => if e.1 = k' then (k', v) else e)
            (l.find? ((fun e => decide (e.1 = k')) ∘ fun e => if e.1 = k' then (k', v) else e))))
            = some v := by
        intro l
        induction l with
        | nil => simp
        | cons e l ih =>
          intro h
          by_cases he : e.1 = k'
          · simp [he]
          · rw [List.map_cons, List.mem_cons] at h
            rw [List.find?_cons_of_neg (by simp [he])]
            exact ih (h.resolve_left fun h' => he h'.symm)
      exact hfind _ hmem
    · rw [if_neg hk]
      have hfind : ∀ l : List (κ × α),
          (Option.map Prod.snd (Option.map (fun e => if e.1 = k then (k, v) else e)
            (l.find? ((fun e => decide (e.1 = k')) ∘ fun e => if e.1 = k then (k, v) else e))))
            = (l.find? fun e => decide (e.1 = k')).map Prod.snd := by
        intro l
        induction l with
        | nil => simp
        | cons e l ih =>
          by_cases he : e.1 = k'
          · have hek : e.1 ≠ k := fun h => hk (he.symm.trans h)
            rw [List.find?_cons_of_pos (by simp [he, hk]), List.find?_cons_of_pos (by simp [he])]
            simp [hek]
          · rw [List.find?_cons_of_neg, List.find?_cons_of_neg (by simp [he])]
            · exact ih
            · rw [Function.comp_apply]
              split
              · simpa using fun h => hk h.symm
              · simpa using he
      exact hfind _
  · rename_i hmem
    simp only [lookup, List.find?_append]
    by_cases hk : k' = k
    · subst hk
      rw [if_pos rfl, List.find?_eq_none.mpr]
      · simp
      · intro e he h
        exact hmem (List.mem_map.mpr ⟨e, he, by simpa using h⟩)
    · rw [if_neg hk]
      have hnone : List.find? (fun e : κ × α => decide (e.1 = k')) [(k, v)] = none := by
        simpa using fun h => hk h.symm
      rw [hnone, Option.or_none]

theorem entries_insert {m : IndexMap κ α} {k : κ} {v : α} (h : k ∉ m.keys) :
    (m.insert k v).entries = m.entries ++ [(k, v)] := by
  rw [insert, dif_neg h]

/-- Pairs with keys of their own are collected as they are. -/
theorem entries_collect {l : List (κ × α)} (h : (l.map Prod.fst).Nodup) : (collect l).entries = l := by
  have hfold : ∀ (l : List (κ × α)) (m : IndexMap κ α), (m.keys ++ l.map Prod.fst).Nodup →
      (l.foldl (fun m e => m.insert e.1 e.2) m).entries = m.entries ++ l := by
    intro l
    induction l with
    | nil => simp
    | cons e l ih =>
      intro m hm
      rw [List.map_cons, ← List.singleton_append, ← List.append_assoc] at hm
      have hkey : e.1 ∉ m.keys := fun hmem =>
        (List.nodup_append.mp (List.nodup_append.mp hm).1).2.2 _ hmem _ (List.mem_singleton_self _) rfl
      have hentries := entries_insert (v := e.2) hkey
      rw [List.foldl_cons, ih]
      · rw [hentries, List.append_assoc]
        rfl
      · rw [keys, hentries, List.map_append]
        exact hm
  exact hfold l empty h

theorem mem_keys_iff {m : IndexMap κ α} {k : κ} : k ∈ m.keys ↔ (m.lookup k).isSome := by
  rw [lookup, Option.isSome_map, List.find?_isSome, keys, List.mem_map]
  simp [decide_eq_true_eq]

theorem mem_entries_iff {m : IndexMap κ α} {k : κ} {v : α} :
    (k, v) ∈ m.entries ↔ m.lookup k = some v := by
  rw [lookup]
  obtain ⟨l, hl⟩ := m
  simp only
  induction l with
  | nil => simp
  | cons e l ih =>
    rw [List.map_cons, List.nodup_cons] at hl
    by_cases he : e.1 = k
    · rw [List.find?_cons_of_pos (by simp [he]), List.mem_cons, Option.map_some,
        Option.some.injEq]
      constructor
      · rintro (h | h)
        · rw [← h]
        · exact absurd (List.mem_map.mpr ⟨_, h, he.symm⟩) hl.1
      · rintro rfl
        exact Or.inl (by rw [← he])
    · rw [List.find?_cons_of_neg (by simp [he]), List.mem_cons, ← ih hl.2]
      constructor
      · rintro (h | h)
        · exact absurd (by rw [← h]) he
        · exact h
      · exact Or.inr

/-- What a collected map holds under `k`: the last of the values given for it. -/
theorem lookup_foldl_insert (l : List (κ × α)) (m : IndexMap κ α) (k : κ) :
    (l.foldl (fun m e => m.insert e.1 e.2) m).lookup k
      = ((l.reverse.find? fun e => e.1 = k).map Prod.snd).or (m.lookup k) := by
  induction l generalizing m with
  | nil => simp
  | cons e l ih =>
    rw [List.foldl_cons, ih, lookup_insert, List.reverse_cons, List.find?_append]
    rcases h : l.reverse.find? (fun e => decide (e.1 = k)) with _ | e'
    · by_cases hk : e.1 = k
      · simp [h, hk]
      · have hk' : k ≠ e.1 := fun h => hk h.symm
        simp [h, hk, hk']
    · simp [h]

/-- **A collected map whose values depend on their keys** holds every pair it was given. -/
theorem lookup_collect {l : List (κ × α)} {k : κ} {v : α}
    (hfun : ∀ v', (k, v') ∈ l → v' = v) :
    (collect l).lookup k = if k ∈ l.map Prod.fst then some v else none := by
  rw [collect, lookup_foldl_insert]
  have hempty : (empty : IndexMap κ α).lookup k = none := rfl
  rw [hempty, Option.or_none]
  split
  · rename_i hmem
    rcases h : l.reverse.find? (fun e => decide (e.1 = k)) with _ | e
    · rw [List.find?_eq_none] at h
      obtain ⟨e, he, hek⟩ := List.mem_map.mp hmem
      exact absurd (by simpa using hek) (h e (List.mem_reverse.mpr he))
    · have hk := List.find?_some h
      have he := List.mem_reverse.mp (List.mem_of_find?_eq_some h)
      rw [decide_eq_true_eq] at hk
      rw [h, Option.map_some, hfun e.2 (by rw [← hk]; exact he)]
  · rename_i hmem
    rw [List.find?_eq_none.mpr]
    · rfl
    · intro e he h
      exact hmem (List.mem_map.mpr ⟨e, List.mem_reverse.mp he, by simpa using h⟩)

/-- **Values collected under keys of their own** are found under these keys. -/
theorem lookup_collect_zip {γ : Type} {R : γ → α → Prop} {f : γ → κ} {l : List γ} {vs : List α}
    (hnodup : (l.map f).Nodup) (h : List.Forall₂ R l vs) {x : γ} (hx : x ∈ l) :
    ∃ v, (collect ((l.map f).zip vs)).lookup (f x) = some v ∧ R x v := by
  have hlen : (l.map f).length ≤ vs.length := by rw [List.length_map, h.length_eq]
  have hkeys : (((l.map f).zip vs).map Prod.fst).Nodup := by rwa [List.map_fst_zip hlen]
  have hmem : ∀ {l : List γ} {vs : List α}, List.Forall₂ R l vs → x ∈ l → ∃ v, (f x, v) ∈ (l.map f).zip vs ∧ R x v := by
    intro l vs h hx
    induction h with
    | nil => simp at hx
    | cons hone _ ih =>
      rcases List.mem_cons.mp hx with rfl | hx
      · exact ⟨_, List.mem_cons_self, hone⟩
      · obtain ⟨v, hv, hR⟩ := ih hx
        exact ⟨v, List.mem_cons_of_mem _ hv, hR⟩
  obtain ⟨v, hv, hR⟩ := hmem h hx
  refine ⟨v, ?_, hR⟩
  rw [← mem_entries_iff, entries_collect hkeys]
  exact hv

/-- A map of one entry. -/
theorem lookup_collect_one (k : κ) (v : α) : (collect [(k, v)]).lookup k = some v := by
  rw [lookup_collect (v := v) (by simp)]
  simp

end IndexMap

end SxtEnterprise
