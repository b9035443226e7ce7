import SxtEnterprise.Paths

/-!
# Table references

`proof_of_sql`'s `TableRef`: an optional schema name and a table name.  `from_str` accepts every
string with at most one dot and keeps the two sides verbatim; `to_string` joins them with the dot
again.  No character is refused, so a reference can be any path string that has at most one dot in
it; the one thing that rules out is stepping back (`TableRef.dotdot_notMem`).
-/

namespace SxtEnterprise

open NumberedNames Paths

/-- A table reference. -/
structure TableRef where
  schemaName : Option Name
  tableName : Name
  deriving DecidableEq

namespace TableRef

/-- `TableRef::from_str`. -/
def fromStr (s : Name) : Option TableRef :=
  match s.splitOn '.' with
  | [table] => some ⟨none, table⟩
  | [schema, table] => some ⟨some schema, table⟩
  | _ => none

/-- `TableRef::to_string`. -/
def toString (r : TableRef) : Name :=
  match r.schemaName with
  | none => r.tableName
  | some schema => schema ++ '.' :: r.tableName

/-- The reference was parsed from a string. -/
def Parsed (r : TableRef) : Prop := ∃ s, fromStr s = some r

/-- **Parsing keeps the string.** -/
theorem toString_of_fromStr {s : Name} {r : TableRef} (h : fromStr s = some r) : r.toString = s := by
  have hs := (List.intercalate_splitOn '.' : ['.'].intercalate (s.splitOn '.') = s)
  rw [fromStr] at h
  split at h
  · rename_i table hsplit
    obtain rfl := Option.some.inj h
    rw [hsplit] at hs
    simpa [toString] using hs
  · rename_i schema table hsplit
    obtain rfl := Option.some.inj h
    rw [hsplit] at hs
    simpa [toString] using hs
  · simp at h

theorem fromStr_toString {r : TableRef} (h : r.Parsed) : fromStr r.toString = some r := by
  obtain ⟨s, hs⟩ := h
  rw [toString_of_fromStr hs, hs]

theorem parsed_iff {r : TableRef} : r.Parsed ↔ fromStr r.toString = some r :=
  ⟨fromStr_toString, fun h => ⟨_, h⟩⟩

instance (r : TableRef) : Decidable r.Parsed := decidable_of_iff _ parsed_iff.symm

/-- Parsed references are told apart by the strings they were parsed from. -/
theorem toString_injective {r r' : TableRef} (hr : r.Parsed) (hr' : r'.Parsed)
    (h : r.toString = r'.toString) : r = r' := by
  have h1 := fromStr_toString hr
  rw [h, fromStr_toString hr'] at h1
  exact (Option.some.inj h1).symm

theorem length_splitOn (s : Name) (c : Char) : (s.splitOn c).length = s.count c + 1 := by
  rw [List.splitOn]
  induction s with
  | nil => simp
  | cons d s ih =>
    rw [List.splitOnP_cons_eq_if_modifyHead]
    by_cases hd : d = c
    · subst hd
      simp [ih]
    · have hb : (d == c) = false := beq_eq_false_iff_ne.mpr hd
      rw [hb, if_neg (by simp), List.length_modifyHead, ih, List.count_cons_of_ne hd]

/-- **What is accepted**: every string with at most one dot. -/
theorem fromStr_isSome {s : Name} : (fromStr s).isSome ↔ s.count '.' ≤ 1 := by
  have hl := length_splitOn s '.'
  rw [fromStr]
  split
  · rename_i h; rw [h] at hl; simp at hl ⊢; omega
  · rename_i h; rw [h] at hl; simp at hl ⊢; omega
  · rename_i h1 h2
    simp only [Option.isSome_none, Bool.false_eq_true, false_iff]
    intro hle
    rcases hs : s.splitOn '.' with _ | ⟨a, _ | ⟨b, _ | ⟨c, l⟩⟩⟩
    · rw [hs] at hl; simp at hl
    · exact h1 a hs
    · exact h2 a b hs
    · rw [hs] at hl; simp at hl; omega

/-- A part of a string has no more of a character than the string. -/
theorem count_le_of_mem_splitOn {s p : Name} {sep c : Char} (h : p ∈ s.splitOn sep) :
    p.count c ≤ s.count c := by
  have hsub : ∀ ls : List Name, p ∈ ls → p.Sublist ([sep].intercalate ls) := by
    intro ls hp
    induction ls with
    | nil => simp at hp
    | cons l ls ih =>
      cases ls with
      | nil => simp [List.mem_singleton.mp hp]
      | cons l' ls =>
        rw [List.intercalate_cons_cons, List.append_assoc]
        rcases List.mem_cons.mp hp with rfl | hp
        · exact List.sublist_append_left _ _
        · exact ((ih hp).trans (List.sublist_append_right _ _)).trans (List.sublist_append_right _ _)
  have := (hsub _ h).count_le c
  rwa [List.intercalate_splitOn] at this

/-- **A parsed reference never steps back**: that would take two dots in one part. -/
theorem dotdot_notMem {r : TableRef} (h : r.Parsed) : dotdot ∉ components r.toString := by
  intro hmem
  have hcount : r.toString.count '.' ≤ 1 := fromStr_isSome.mp (by rw [fromStr_toString h]; rfl)
  have hpart := count_le_of_mem_splitOn (c := '.') (List.mem_filter.mp hmem).1
  have h2 : dotdot.count '.' = 2 := by decide
  omega

theorem count_intercalate {c d : Char} (h : d ≠ c) (ls : List Name) :
    ([d].intercalate ls).count c = (ls.map (List.count c)).sum := by
  induction ls with
  | nil => simp
  | cons l ls ih =>
    cases ls with
    | nil => simp
    | cons l' ls =>
      rw [List.intercalate_cons_cons, List.count_append, List.count_append, ih]
      simp [h]

/-- **The way to a table's directory leads through directories that have references themselves.** -/
theorem exists_parsed_above {r : TableRef} (hr : r.Parsed) (p : Path) {q : List Name}
    (hq : q <+: (p.join r.toString).comps) (hlong : p.comps <+: q) :
    ∃ r' : TableRef, r'.Parsed ∧ (p.join r'.toString).comps = q ∧
      (p.join r'.toString).start = (p.join r.toString).start := by
  have hcount : r.toString.count '.' ≤ 1 := fromStr_isSome.mp (by rw [fromStr_toString hr]; rfl)
  have hfew : ∀ l, l <+: components r.toString → (['/'].intercalate l).count '.' ≤ 1 := by
    intro l hl
    have hsub : l.Sublist (r.toString.splitOn '/') := hl.sublist.trans List.filter_sublist
    have hle := (hsub.map (List.count '.')).sum_le_sum (by simp)
    rw [← count_intercalate (d := '/') (by decide), ← count_intercalate (d := '/') (by decide),
      List.intercalate_splitOn] at hle
    omega
  have hparse : ∀ s : Name, s.count '.' ≤ 1 → ∃ r' : TableRef, r'.Parsed ∧ r'.toString = s := by
    intro s hs
    obtain ⟨r', hr'⟩ := Option.isSome_iff_exists.mp (fromStr_isSome.mpr hs)
    exact ⟨r', ⟨s, hr'⟩, toString_of_fromStr hr'⟩
  rw [Path.join] at hq ⊢
  split at hq
  · rename_i habs
    obtain ⟨r', hr', hs⟩ := hparse ('/' :: ['/'].intercalate q) (by
      rw [List.count_cons_of_ne (by decide)]
      exact hfew q hq)
    have hcomps : components r'.toString = q := by
      rw [hs, components_cons_slash, (components_intercalate hq).1]
    exact ⟨r', hr', by rw [Path.join, if_pos (by rw [hs]; rfl), hcomps],
      by rw [Path.join, if_pos (by rw [hs]; rfl), if_pos habs]⟩
  · rename_i hrel
    obtain ⟨l, rfl⟩ := hlong
    have hl : l <+: components r.toString := (List.prefix_append_right_inj _).mp hq
    obtain ⟨r', hr', hs⟩ := hparse (['/'].intercalate l) (hfew l hl)
    obtain ⟨hcomps, hhead⟩ := components_intercalate hl
    exact ⟨r', hr', by rw [Path.join, if_neg (by rwa [hs]), hs, hcomps],
      by rw [Path.join, if_neg (by rwa [hs]), if_neg hrel]⟩

theorem join_straight {r : TableRef} (h : r.Parsed) {p : Path} (hp : p.Straight) :
    (p.join r.toString).Straight := by
  rw [Path.join]
  split
  · exact dotdot_notMem h
  · rw [Path.Straight, List.mem_append, not_or]
    exact ⟨hp, dotdot_notMem h⟩

end TableRef

end SxtEnterprise
