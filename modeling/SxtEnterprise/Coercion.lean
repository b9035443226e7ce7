import SxtEnterprise.SampleService

/-!
# Coercing aggregate results

`coerceScalars` pairs columns with declared fields by position and converts raw field elements to machine
integers.  Column by column this is `coerceColumn`, which keeps lengths, so that the columns make a table
again (`coerceScalars_eq_ok`).  A field element stands for the integer nearest to zero that embeds to it, and
where `TryInto` succeeds exactly on the elements that stand for an integer in range, coercing changes types
and never values (`coercion_keeps_values`).
-/

namespace SxtEnterprise

open NumberedNames FaultyRun

/-- The machine integers a column type is made of, if it is. -/
def ColumnType.machineInt : ColumnType → Option MachineInt
  | .uint8 => some .u8
  | .tinyInt => some .i8
  | .smallInt => some .i16
  | .int => some .i32
  | .bigInt => some .i64
  | .int128 => some .i128
  | _ => none

/-- A column of machine integers. -/
def OwnedColumn.ofInts {ς ν : Type} : MachineInt → List ℤ → OwnedColumn ς ν
  | .u8 => .uint8
  | .i8 => .tinyInt
  | .i16 => .smallInt
  | .i32 => .int
  | .i64 => .bigInt
  | .i128 => .int128

@[simp] theorem OwnedColumn.length_ofInts {ς ν : Type} (type : MachineInt) (ns : List ℤ) :
    (ofInts type ns : OwnedColumn ς ν).length = ns.length := by
  cases type <;> rfl

namespace Prove

variable {ρ κ σ : Type} (P : ProofSystem ρ κ σ)

/-- What becomes of one column declared to be of `type`. -/
def coerceColumn (column : OwnedColumn P.Scalar P.Value) (type : ColumnType) :
    Except ProveError (OwnedColumn P.Scalar P.Value) :=
  match column with
  | .scalar values => coerceScalarColumn P values type
  | column => pure column

variable {P} {table t : OwnedTable P.Scalar P.Value} {fields : List ColumnField}

/-- **The integer types are one case.** -/
theorem coerceScalarColumn_of_machineInt {values : List P.Scalar} {type : ColumnType} {m : MachineInt}
    (h : type.machineInt = some m) : coerceScalarColumn P values type = .ofInts m <$> convert P m values := by
  cases type <;> simp only [ColumnType.machineInt, Option.some.injEq, reduceCtorEq] at h <;> subst h <;> rfl

theorem convert_eq_ok {m : MachineInt} {values : List P.Scalar} {ns : List ℤ} :
    convert P m values = .ok ns ↔ values.mapM (P.tryInto m) = some ns := by
  rw [convert]
  split
  · rename_i h; rw [h]; simp
  · rename_i h; rw [h]; simp

theorem convert_eq_error {m : MachineInt} {values : List P.Scalar} {e : ProveError}
    (h : convert P m values = .error e) : e = .scalarOverflow := by
  rw [convert] at h
  split at h
  · simp at h
  · exact (Except.error.inj h).symm

theorem length_coerceColumn {c c' : OwnedColumn P.Scalar P.Value} {type : ColumnType}
    (h : coerceColumn P c type = .ok c') : c'.length = c.length := by
  cases c with
  | scalar values =>
    change coerceScalarColumn P values type = .ok c' at h
    rcases hm : type.machineInt with _ | m
    · cases type <;> simp only [ColumnType.machineInt, reduceCtorEq] at hm
      all_goals
        obtain rfl := Except.ok.inj h
        rfl
    · rw [coerceScalarColumn_of_machineInt hm] at h
      rcases hc : convert P m values with e | ns
      · rw [hc] at h
        simp [Functor.map, Except.map] at h
      · rw [hc] at h
        obtain rfl := Except.ok.inj h
        rw [OwnedColumn.length_ofInts, ← (mapM_eq_some_iff.mp (convert_eq_ok.mp hc)).length_eq]
        rfl
  | _ => obtain rfl := Except.ok.inj h; rfl

/-- Coercing fails on overflow only. -/
theorem coerceColumn_eq_error {c : OwnedColumn P.Scalar P.Value} {type : ColumnType} {e : ProveError}
    (h : coerceColumn P c type = .error e) : e = .scalarOverflow := by
  cases c with
  | scalar values =>
    change coerceScalarColumn P values type = .error e at h
    rcases hm : type.machineInt with _ | m
    · cases type <;> simp only [ColumnType.machineInt, reduceCtorEq] at hm
      all_goals exact absurd h (by simp [coerceScalarColumn])
    · rw [coerceScalarColumn_of_machineInt hm] at h
      rcases hc : convert P m values with e' | ns
      · rw [hc] at h
        obtain rfl := Except.error.inj h
        exact convert_eq_error hc
      · rw [hc] at h
        simp [Functor.map, Except.map] at h
  | _ => exact absurd h (by simp [coerceColumn, pure, Except.pure])

/-- The coerced columns as a table. -/
def rebuilt : Except ProveError (List (Name × OwnedColumn P.Scalar P.Value)) →
    Outcome ProveError (OwnedTable P.Scalar P.Value)
  | .error e => .err e
  | .ok columns =>
    match OwnedTable.tryFromIter columns with
    | some table => .ok table
    | none => .panic

/-- Every column is coerced under its own name. -/
theorem coerceScalars_eq : coerceScalars P table fields = rebuilt
    ((table.columns.entries.zip fields).mapM fun cf => (cf.1.1, ·) <$> coerceColumn P cf.1.2 cf.2.dataType) := by
  show rebuilt ((table.columns.entries.zip fields).mapM fun cf => do
    let column ← match cf.1.2 with
      | .scalar values => coerceScalarColumn P values cf.2.dataType
      | column => pure column
    pure (cf.1.1, column)) = _
  refine congrArg (fun f => rebuilt ((table.columns.entries.zip fields).mapM f)) (funext fun cf => ?_)
  obtain ⟨⟨name, column⟩, field⟩ := cf
  rw [map_eq_pure_bind]
  cases column <;> rfl

theorem map_eq_ok {ε α β : Type} {f : α → β} {x : Except ε α} {b : β} :
    f <$> x = .ok b ↔ ∃ a, x = .ok a ∧ f a = b := by
  cases x <;> simp [Functor.map, Except.map]

/-- **Coerced columns make a table again**: their names are still different and their lengths still the same. -/
theorem tryFromIter_coerced {columns : List (Name × OwnedColumn P.Scalar P.Value)}
    (hlen : fields.length = table.columns.entries.length)
    (h : List.Forall₂ (fun cf c' => (cf.1.1, ·) <$> coerceColumn P cf.1.2 cf.2.dataType = .ok c')
      (table.columns.entries.zip fields) columns) :
    columns.map Prod.fst = table.columns.keys ∧
      ∃ t : OwnedTable P.Scalar P.Value, OwnedTable.tryFromIter columns = some t ∧ t.columns.entries = columns := by
  have hkept : ∀ {pairs : List ((Name × OwnedColumn P.Scalar P.Value) × ColumnField)}
      {columns : List (Name × OwnedColumn P.Scalar P.Value)},
      List.Forall₂ (fun cf c' => (cf.1.1, ·) <$> coerceColumn P cf.1.2 cf.2.dataType = .ok c') pairs columns →
      columns.map (fun c => (c.1, c.2.length)) = pairs.map fun cf => (cf.1.1, cf.1.2.length) := by
    intro pairs columns h
    induction h with
    | nil => rfl
    | cons hc _ ih =>
      obtain ⟨c', hcoerce, rfl⟩ := map_eq_ok.mp hc
      rw [List.map_cons, List.map_cons, ih, length_coerceColumn hcoerce]
  have hzip := hkept h
  rw [← Function.comp_def (fun c : Name × OwnedColumn P.Scalar P.Value => (c.1, c.2.length)) Prod.fst,
    ← List.map_map, List.map_fst_zip hlen.ge] at hzip
  have hnames : columns.map Prod.fst = table.columns.keys := by
    have := congrArg (List.map Prod.fst) hzip
    simpa [List.map_map, Function.comp_def, IndexMap.keys] using this
  have hentries : (IndexMap.collect columns).entries = columns :=
    IndexMap.entries_collect (by rw [hnames]; exact table.columns.nodup)
  -- every length is one of the old table's
  have hlength : ∀ c ∈ columns, ∃ d ∈ table.columns.entries, d.2.length = c.2.length := by
    intro c hc
    have hmem : (c.1, c.2.length) ∈ columns.map fun c => (c.1, c.2.length) := List.mem_map.mpr ⟨c, hc, rfl⟩
    rw [hzip, List.mem_map] at hmem
    obtain ⟨d, hd, heq⟩ := hmem
    exact ⟨d, hd, (Prod.mk.inj heq).2⟩
  have hsame : ∀ c ∈ (IndexMap.collect columns).entries, ∀ d ∈ (IndexMap.collect columns).entries,
      c.2.length = d.2.length := by
    rw [hentries]
    intro c hc d hd
    obtain ⟨c₀, hc₀, hceq⟩ := hlength c hc
    obtain ⟨d₀, hd₀, hdeq⟩ := hlength d hd
    rw [← hceq, ← hdeq, table.sameLength c₀ hc₀ d₀ hd₀]
  exact ⟨hnames, ⟨_, hsame⟩, by rw [OwnedTable.tryFromIter, dif_pos hsame], hentries⟩

/-- **What coercing does, column by column.** -/
theorem coerceScalars_ok (hlen : fields.length = table.columns.entries.length)
    (h : coerceScalars P table fields = .ok t) :
    t.columns.keys = table.columns.keys ∧
      List.Forall₂ (fun cf c' => c'.1 = cf.1.1 ∧ coerceColumn P cf.1.2 cf.2.dataType = .ok c'.2)
        (table.columns.entries.zip fields) t.columns.entries := by
  rw [coerceScalars_eq] at h
  rcases hcolumns : (table.columns.entries.zip fields).mapM fun cf =>
    (cf.1.1, ·) <$> coerceColumn P cf.1.2 cf.2.dataType with e | columns
  · rw [hcolumns] at h
    simp [rebuilt] at h
  · have hall := mapM_eq_ok_iff.mp hcolumns
    obtain ⟨hnames, t', htable, hentries⟩ := tryFromIter_coerced hlen hall
    rw [hcolumns, rebuilt, htable] at h
    rw [Outcome.ok.injEq] at h
    subst h
    rw [IndexMap.keys, hentries]
    refine ⟨hnames, hall.imp fun cf c' hc => ?_⟩
    obtain ⟨c, hcoerce, rfl⟩ := map_eq_ok.mp hc
    exact ⟨rfl, hcoerce⟩

/-- It fails on overflow only, and never panics. -/
theorem coerceScalars_stop (hlen : fields.length = table.columns.entries.length)
    (h : ∀ t, coerceScalars P table fields ≠ .ok t) : coerceScalars P table fields = .err .scalarOverflow ∧
      ∃ cf ∈ table.columns.entries.zip fields, ∃ e, coerceColumn P cf.1.2 cf.2.dataType = .error e := by
  rw [coerceScalars_eq] at h ⊢
  rcases hcolumns : (table.columns.entries.zip fields).mapM fun cf =>
    (cf.1.1, ·) <$> coerceColumn P cf.1.2 cf.2.dataType with e | columns
  · obtain ⟨cf, hcf, hcoerce⟩ := mapM_eq_error hcolumns
    rcases hc : coerceColumn P cf.1.2 cf.2.dataType with e' | c
    · rw [hc] at hcoerce
      obtain rfl : e' = e := Except.error.inj hcoerce
      refine ⟨?_, cf, hcf, _, hc⟩
      rw [hcolumns, coerceColumn_eq_error hc]
      rfl
    · rw [hc] at hcoerce
      simp [Functor.map, Except.map] at hcoerce
  · obtain ⟨-, t, htable, -⟩ := tryFromIter_coerced hlen (mapM_eq_ok_iff.mp hcolumns)
    rw [hcolumns, rebuilt, htable] at h
    exact absurd rfl (h t)

/-! ### Types change, values never -/

section Values

variable {q : ℕ} (e : P.Scalar ≃ ZMod q)

/-- The integer a field element stands for: elements above half the modulus stand for negative numbers. -/
def standsFor (s : P.Scalar) : ℤ := (e s).valMinAbs

/-- Conversion succeeds exactly on the elements that stand for an integer in range. -/
def ConvertsExactly : Prop :=
  ∀ type s, P.tryInto type s = if type.Holds (standsFor e s) then some (standsFor e s) else none

/-- What a column declared to be of `type` may become: another column of the same values. -/
inductive SameValues (type : ColumnType) :
    OwnedColumn P.Scalar P.Value → OwnedColumn P.Scalar P.Value → Prop
  | untouched {c : OwnedColumn P.Scalar P.Value} : ¬ c.IsScalar → SameValues type c c
  | integers {m : MachineInt} {vs : List P.Scalar} {ns : List ℤ} : type.machineInt = some m →
      List.Forall₂ (fun s n => m.Holds n ∧ e.symm (n : ZMod q) = s) vs ns →
      SameValues type (.scalar vs) (.ofInts m ns)
  | decimal {p : ℕ} {scale : ℤ} {vs : List P.Scalar} : type = .decimal75 p scale →
      SameValues type (.scalar vs) (.decimal75 p scale vs)
  | raw {vs : List P.Scalar} : type.machineInt = none → (∀ p scale, type ≠ .decimal75 p scale) →
      SameValues type (.scalar vs) (.scalar vs)

/-- Every value of a raw column declared to be of an integer type is in that type's range. -/
def InRange (column : OwnedColumn P.Scalar P.Value) (type : ColumnType) : Prop :=
  ∀ vs m, column = .scalar vs → type.machineInt = some m → ∀ s ∈ vs, m.Holds (standsFor e s)

variable {e}

/-- A list of elements converts if they are all in range, to the integers they stand for. -/
theorem convert_cases (he : ConvertsExactly e) (m : MachineInt) (vs : List P.Scalar) :
    ((∀ s ∈ vs, m.Holds (standsFor e s)) ∧ convert P m vs = .ok (vs.map (standsFor e))) ∨
      (¬ (∀ s ∈ vs, m.Holds (standsFor e s)) ∧ convert P m vs = .error .scalarOverflow) := by
  by_cases hall : ∀ s ∈ vs, m.Holds (standsFor e s)
  · refine Or.inl ⟨hall, convert_eq_ok.mpr (mapM_eq_some_iff.mpr ?_)⟩
    rw [List.forall₂_map_right_iff, List.forall₂_same]
    exact fun s hs => by rw [he m s, if_pos (hall s hs)]
  · refine Or.inr ⟨hall, ?_⟩
    rcases hc : convert P m vs with e' | ns
    · rw [convert_eq_error hc]
    · have hconv := mapM_eq_some_iff.mp (convert_eq_ok.mp hc)
      refine absurd ((List.forall₂_and_left _ _).mp (hconv.imp fun s n hn => ⟨?_, hn⟩)).1 hall
      by_contra hout
      rw [he m s, if_neg hout] at hn
      simp at hn

/-- **One column.** -/
theorem coerceColumn_cases (he : ConvertsExactly e) (c : OwnedColumn P.Scalar P.Value) (type : ColumnType) :
    (InRange e c type ∧ ∃ c', coerceColumn P c type = .ok c' ∧ SameValues e type c c') ∨
      (¬ InRange e c type ∧ coerceColumn P c type = .error .scalarOverflow) := by
  cases c with
  | scalar vs =>
    change (_ ∧ ∃ c', coerceScalarColumn P vs type = .ok c' ∧ _) ∨ (_ ∧ coerceScalarColumn P vs type = _)
    rcases hm : type.machineInt with _ | m
    · refine Or.inl ⟨fun _ m _ h => by simp [hm] at h, ?_⟩
      cases type <;> simp only [ColumnType.machineInt, reduceCtorEq] at hm
      · exact ⟨_, rfl, .decimal rfl⟩
      · exact ⟨_, rfl, .raw rfl (by simp)⟩
    · have hrange : InRange e (.scalar vs) type ↔ ∀ s ∈ vs, m.Holds (standsFor e s) := by
        constructor
        · exact fun h => h vs m rfl hm
        · rintro h vs' m' hvs hm'
          obtain rfl := OwnedColumn.scalar.inj hvs
          obtain rfl := Option.some.inj (hm.symm.trans hm')
          exact h
      rw [hrange, coerceScalarColumn_of_machineInt hm]
      rcases convert_cases he m vs with ⟨hall, hc⟩ | ⟨hnot, hc⟩
      · refine Or.inl ⟨hall, _, by rw [hc]; rfl, .integers hm ?_⟩
        rw [List.forall₂_map_right_iff, List.forall₂_same]
        exact fun s hs => ⟨hall s hs, by rw [standsFor, ZMod.coe_valMinAbs, Equiv.symm_apply_apply]⟩
      · exact Or.inr ⟨hnot, by rw [hc]; rfl⟩
  | _ =>
    refine Or.inl ⟨fun _ _ h => by simp at h, _, rfl, .untouched ?_⟩
    simp [OwnedColumn.IsScalar]

/-- **Coercion changes types, never values**: it succeeds exactly when every raw value declared to be an integer
is in range, and then keeps names, order, lengths and values; otherwise it fails on overflow. -/
theorem coercion_keeps_values (he : ConvertsExactly e) (hlen : fields.length = table.columns.entries.length) :
    ((∃ t, coerceScalars P table fields = .ok t) ↔
      ∀ cf ∈ table.columns.entries.zip fields, InRange e cf.1.2 cf.2.dataType) ∧
    (∀ t, coerceScalars P table fields = .ok t → t.columns.keys = table.columns.keys ∧
      List.Forall₂ (fun cf c' => c'.1 = cf.1.1 ∧ c'.2.length = cf.1.2.length ∧
        SameValues e cf.2.dataType cf.1.2 c'.2) (table.columns.entries.zip fields) t.columns.entries) ∧
    ((∀ t, coerceScalars P table fields ≠ .ok t) → coerceScalars P table fields = .err .scalarOverflow) := by
  refine ⟨⟨?_, fun h => ?_⟩, fun t ht => ?_, fun h => (coerceScalars_stop hlen h).1⟩
  · rintro ⟨t, ht⟩
    refine ((List.forall₂_and_left _ _).mp ((coerceScalars_ok hlen ht).2.imp fun cf c' hc => ⟨?_, hc⟩)).1
    rcases coerceColumn_cases he cf.1.2 cf.2.dataType with ⟨hr, -⟩ | ⟨-, herr⟩
    · exact hr
    · rw [hc.2] at herr
      simp at herr
  · by_contra hno
    push Not at hno
    obtain ⟨-, cf, hcf, e', hc⟩ := coerceScalars_stop hlen hno
    rcases coerceColumn_cases he cf.1.2 cf.2.dataType with ⟨-, c', hok, -⟩ | ⟨hnot, -⟩
    · rw [hc] at hok
      simp at hok
    · exact hnot (h cf hcf)
  · obtain ⟨hkeys, hall⟩ := coerceScalars_ok hlen ht
    refine ⟨hkeys, hall.imp fun cf c' hc => ⟨hc.1, length_coerceColumn hc.2, ?_⟩⟩
    rcases coerceColumn_cases he cf.1.2 cf.2.dataType with ⟨-, c, hok, hsame⟩ | ⟨-, herr⟩
    · rw [hc.2] at hok
      rwa [Except.ok.inj hok]
    · rw [hc.2] at herr
      simp at herr

end Values

section Sample

open SampleService

theorem convertsExactly_proofs : ConvertsExactly (P := proofs) (Equiv.refl (ZMod 1009)) := fun _ _ => rfl

/-- The count `-3` is one of the values of the smallest integer type, the count `300` is not. -/
theorem coercion_keeps_values_sample :
    (∃ t, coerceScalars proofs (counted (.scalar [1006])) [⟨"n".toList, .tinyInt⟩] = .ok t) ∧
    coerceScalars proofs (counted (.scalar [300])) [⟨"n".toList, .tinyInt⟩] = .err .scalarOverflow := by
  have hsmall := @coercion_keeps_values _ _ _ proofs (counted (.scalar [1006])) [⟨"n".toList, .tinyInt⟩] _ _
    convertsExactly_proofs rfl
  have hlarge := @coercion_keeps_values _ _ _ proofs (counted (.scalar [300])) [⟨"n".toList, .tinyInt⟩] _ _
    convertsExactly_proofs rfl
  constructor
  · refine hsmall.1.mpr fun cf hcf => ?_
    obtain rfl := List.mem_singleton.mp hcf
    intro vs m hvs hm s hs
    obtain rfl := OwnedColumn.scalar.inj hvs
    obtain rfl : .i8 = m := Option.some.inj hm
    obtain rfl := List.mem_singleton.mp hs
    decide +kernel
  · refine hlarge.2.2 fun t ht => ?_
    have hrange := hlarge.1.mp ⟨t, ht⟩ _ (List.mem_singleton_self _) _ .i8 rfl rfl _ (List.mem_singleton_self _)
    exact absurd hrange (by decide +kernel)

end Sample

end Prove

end SxtEnterprise
