import SxtEnterprise.AllOrNothing
import SxtEnterprise.Handlers

/-!
# Which posted rows are stored as they were posted

`POST /tables/{table}/rows` hands its rows to a JSON decoder that skips the members no column asks for, and brings
what it is given to the column's type.  A row that says exactly what the table's columns can hold is decoded to just
that (`decodeRows_exact`); any other row that is decoded at all is answered with `201` and stored as something else.
And an insert that fails after its batch file was written has stored the rows it refuses.  A table without columns
refuses every post, since its schema cannot be read.
-/

namespace SxtEnterprise

open NumberedNames Paths FaultyRun

/-! ### Rows in JSON -/

/-- A JSON value; what is inside an array or an object is not looked at here. -/
inductive Json where
  | null
  | bool (b : Bool)
  | number (n : ℚ)
  | string (s : Name)
  | nested

/-- A row as it is posted: an object, or some other value. -/
inductive PostedRow where
  | object (members : IndexMap Name Json)
  | value (value : Json)

/-- A value of a stored row. -/
inductive Cell where
  | boolean (b : Bool)
  | integer (n : ℤ)
  | text (s : Name)
  deriving DecidableEq

/-- The JSON value that says just this. -/
def Cell.json : Cell → Json
  | .boolean b => .bool b
  | .integer n => .number n
  | .text s => .string s

/-- The integers of an integer type. -/
def DataType.machineInt : DataType → Option MachineInt
  | .int8 => some .i8
  | .int16 => some .i16
  | .int32 => some .i32
  | .int64 => some .i64
  | _ => none

/-- The value is of the type, and representable in it. -/
def Cell.Fits (type : DataType) : Cell → Prop
  | .boolean _ => type = .boolean
  | .integer n => ∃ m, type.machineInt = some m ∧ m.Holds n
  | .text _ => type = .utf8

/-- The members are exactly the columns, and say that the values are `cells`. -/
structure RowIs (schema : Schema) (members : IndexMap Name Json) (cells : List Cell) : Prop where
  keys : ∀ name, (members.lookup name).isSome = true ↔ name ∈ schema.map Field.name
  values : List.Forall₂ (fun field cell => members.lookup field.name = some cell.json ∧ cell.Fits field.dataType)
    schema cells

/-- The row is an object that says exactly `cells`. -/
def PostedRow.Is (schema : Schema) : PostedRow → List Cell → Prop
  | .object members, cells => RowIs schema members cells
  | .value _, _ => False

/-- A row, decoded: every column's reader is given the member of its name, or null.  What else there is in the object
is skipped. -/
def decodeRow (cell : Field → Json → Option Cell) (schema : Schema) : PostedRow → Option (List Cell)
  | .object members => schema.mapM fun field => cell field ((members.lookup field.name).getD .null)
  | .value _ => none

/-- The JSON decoder as the service configures it; `cell` is what a column's reader makes of a JSON value.  It takes
all rows it is given, and a value that is representable in its column is read as it is. -/
structure RowsDecoder (K : Codecs (List Cell) PostedRow) (cell : Field → Json → Option Cell) : Prop where
  empty : ∀ schema, K.decodeRows schema [] = some none
  rows : ∀ schema rows, (schema.map Field.name).Nodup → rows ≠ [] →
    K.decodeRows schema rows = (rows.mapM (decodeRow cell schema)).map fun decoded => some ⟨schema, decoded⟩
  exact : ∀ field value, value.Fits field.dataType → cell field value.json = some value

section Decoding

variable {K : Codecs (List Cell) PostedRow} {cell : Field → Json → Option Cell} {schema : Schema}
  {rows : List PostedRow} {batch : RecordBatch (List Cell)}

/-- Rows are decoded one by one. -/
theorem RowsDecoder.decodeBatch_eq_ok (hD : RowsDecoder K cell) (hnd : (schema.map Field.name).Nodup) :
    Api.decodeBatch K schema rows = .ok batch ↔
      batch.schema = schema ∧ List.Forall₂ (fun row cells => decodeRow cell schema row = some cells) rows batch.rows := by
  rw [Api.decodeBatch_eq_ok]
  by_cases hrows : rows = []
  · subst hrows
    rw [hD.empty]
    simp only [Option.some.injEq, exists_eq_left', Option.getD_none, List.forall₂_nil_left_iff]
    constructor
    · rintro rfl
      exact ⟨rfl, rfl⟩
    · rintro ⟨hs, hr⟩
      rw [RecordBatch.newEmpty, ← hs, ← hr]
  · rw [hD.rows schema rows hnd hrows]
    simp only [Option.map_eq_some_iff, mapM_eq_some_iff]
    constructor
    · rintro ⟨_, ⟨cells, hcells, rfl⟩, rfl⟩
      exact ⟨rfl, hcells⟩
    · rintro ⟨rfl, hcells⟩
      exact ⟨_, ⟨_, hcells, rfl⟩, rfl⟩

/-- An exact row is decoded to what it says. -/
theorem RowsDecoder.decodeRow_exact (hD : RowsDecoder K cell) {row : PostedRow} {cells : List Cell}
    (h : row.Is schema cells) : decodeRow cell schema row = some cells := by
  rcases row with members | value
  · rw [decodeRow, mapM_eq_some_iff]
    refine h.values.imp fun field value hv => ?_
    rw [hv.1, Option.getD_some]
    exact hD.exact field value hv.2
  · exact absurd h id

/-- **Exact rows are decoded to what they say**, and to nothing else. -/
theorem RowsDecoder.rows_exact (hD : RowsDecoder K cell) (hnd : (schema.map Field.name).Nodup)
    (h : Api.decodeBatch K schema rows = .ok batch) {posted : List (List Cell)}
    (hposted : List.Forall₂ (PostedRow.Is schema) rows posted) : batch.rows = posted := by
  have hdecoded : List.Forall₂ (fun row cells => decodeRow cell schema row = some cells) rows posted :=
    hposted.imp fun _ _ => hD.decodeRow_exact
  have hbatch := mapM_eq_some_iff.mpr ((hD.decodeBatch_eq_ok hnd).mp h).2
  exact Option.some.inj (hbatch.symm.trans (mapM_eq_some_iff.mpr hdecoded))

end Decoding

/-! ### An insert into a tidy directory of whole batch files -/

namespace Db

variable {ρ κ σ : Type} {L : Libs ρ κ σ} {db : Db} {fs fs' : Fs} {r : TableRef} {b : RecordBatch ρ} {setup : σ}
  {fates : List Fate} {p : Loc Name} {n : ℕ} {k : κ} {e : TableLog ρ} {idx : List ℕ} {o : Outcome DbError Unit}
  {w' : World Fs (Loc Name)}

/-- The file of `b` is written to its end, if writing it is begun. -/
def Whole (L : Libs ρ κ σ) (b : RecordBatch ρ) (fates : List Fate) : Prop :=
  ∃ bytes, L.writeParquet b = some bytes ∧ ∀ cut, Cuts fates cut → bytes.length ≤ cut

/-- A batch file written to its end is one batch more. -/
theorem Batches.push_of_whole (h : Batches L fs p e idx) (hn : n = (parquetNames fs p).length)
    (hcol : e.schema ≠ []) (hs : b.schema = e.schema) {made : Except Failure κ}
    (hleft : StoreLeft L fs p n b made fates o fs') (hwhole : o = .ok () ∨ Whole L b (fates.drop 1)) :
    Batches L fs' p (e.push b) (idx ++ [n]) := by
  cases hleft with
  | noParquet ho hnone _ =>
    obtain ⟨bytes, hb, -⟩ := hwhole.resolve_left ho
    rw [hb] at hnone
    simp at hnone
  | partBatch ho hb hcut hset =>
    obtain ⟨bytes, hb', hlen⟩ := hwhole.resolve_left ho
    obtain rfl := Option.some.inj (hb.symm.trans hb')
    rw [List.take_of_length_le (hlen _ hcut)] at hset
    exact h.append hn hset hb hcol hs fun _ _ => rfl
  | batchOnly _ hb _ hset _ => exact h.append hn hset hb hcol hs fun _ _ => rfl
  | partCommit _ hb _ hset _ _ _ _ hset' => exact h.append hn hset hb hcol hs fun q hq => hset'.ne hq
  | all hb hset _ _ hset' => exact h.append hn hset hb hcol hs fun q hq => hset'.ne hq

/-- **What is read after an insert that stopped** is what was read before it exactly if its batch file was written to
its end, and holds no rows. -/
theorem Batches.unchanged_iff (h : Batches L fs (db.tableDir r).loc e idx) (hL : L.Lawful) (hr : r.Parsed)
    (hnul : (db.tableDir r).hasNul = false) (hcol : e.schema ≠ []) (ht : Tidy fs (db.tableDir r).loc)
    (hn : n = (parquetNames fs (db.tableDir r).loc).length) (hs : b.schema = e.schema) {made : Except Failure κ}
    (hleft : StoreLeft L fs (db.tableDir r).loc n b made fates o fs') (ho : o ≠ .ok ()) :
    (tableData L db r).eval fs' = (tableData L db r).eval fs ↔ b.rows = [] ∧ Whole L b (fates.drop 1) := by
  have ht' : Tidy fs' (db.tableDir r).loc := fun c hc hd => ht c hc ((hleft.isDir_iff _).mp hd)
  have hread := h.eval_tableData hL hr hnul hcol ht
  constructor
  · intro hun
    rw [hread] at hun
    have hwhole : Whole L b (fates.drop 1) := by
      cases hleft with
      | noParquet _ _ hset =>
        exact absurd hL.parquetSchema_nil (parquetSchema_of_data hr hun (isParquet_batchName n) hset.self)
      | @partBatch _ _ bytes cut _ hb hcut hset =>
        refine ⟨bytes, hb, fun cut' hcut' => ?_⟩
        obtain rfl := hcut.unique hcut'
        by_contra hlt
        exact parquetSchema_of_data hr hun (isParquet_batchName n) hset.self
          (hL.parquetSchema_take b bytes cut hb (by omega))
      | batchOnly _ hb hwhole _ _ => exact ⟨_, hb, fun cut hcut => absurd hcut (hwhole cut)⟩
      | partCommit _ hb hwhole _ _ _ _ _ _ => exact ⟨_, hb, fun cut hcut => absurd hcut (hwhole cut)⟩
      | all _ _ _ _ _ => exact absurd rfl ho
    exact ⟨(h.push_of_whole hn hcol hs hleft (Or.inr hwhole)).rows_of_unchanged hL hr hnul ht' hun, hwhole⟩
  · rintro ⟨hrows, hwhole⟩
    rw [(h.push_of_whole hn hcol hs hleft (Or.inr hwhole)).eval_tableData hL hr hnul hcol ht', hread]
    obtain ⟨rs, rs', heq, heq', -⟩ := e.readBack_push b
    rw [hrows, List.append_nil, ← heq] at heq'
    exact congrArg Outcome.ok (congrArg (RecordBatch.mk e.schema) heq')

section Insert

variable {w : World Fs (Loc Name)}

/-- An insert that is stopped before its batch file is made, or finds no commitment, changes nothing. -/
theorem insert_blocked (hr : r.Parsed) (hl : Lossless w.fates)
    (hblock : (∃ f ∈ w.fates.take 4, f.stops = true) ∨ ∀ k, ¬ CommitmentAt L w.state (db.tableDir r).loc k)
    (hrun : Db.insert L db r b setup w = (o, w')) : w'.state = w.state ∧ o ≠ .ok () ∧ o ≠ .panic := by
  have hno : ∀ n k, Ready L w.state (db.tableDir r).loc b.schema n k → ¬ ∀ f ∈ w.fates.take 4, f.stops = false := by
    intro n k hready hgo
    rcases hblock with ⟨f, hf, hs⟩ | hcommit
    · rw [hgo f hf] at hs
      simp at hs
    · exact hcommit k hready.commitment
  have hpanic : o ≠ .panic := by
    rintro rfl
    obtain ⟨n, k, -, -, hready, hgo, -⟩ := (insert_panic_iff hr hl).mp (by rw [hrun])
    exact hno n k hready hgo
  rcases insert_cases hr hl hrun with ⟨hsame, ho⟩ | ⟨n, k, -, hready, hgo, -⟩
  · exact ⟨hsame, ho, hpanic⟩
  · exact absurd hgo (hno n k hready)

/-- What the checks of an insert find in a tidy directory of whole batch files. -/
theorem Batches.ready (h : Batches L w.state (db.tableDir r).loc e idx) (hL : L.Lawful) (hcol : e.schema ≠ [])
    (ht : Tidy w.state (db.tableDir r).loc) (hs : b.schema = e.schema)
    (hk : CommitmentAt L w.state (db.tableDir r).loc k) :
    Ready L w.state (db.tableDir r).loc b.schema (parquetNames w.state (db.tableDir r).loc).length k :=
  ⟨h.isDir, hs ▸ h.firstSchema_tidy hL hcol ht, rfl, hk⟩

/-- What is read after an insert that went through. -/
theorem Batches.eval_tableData_insert (h : Batches L w.state (db.tableDir r).loc e idx) (hL : L.Lawful) (hr : r.Parsed)
    (hnul : (db.tableDir r).hasNul = false) (ht : Tidy w.state (db.tableDir r).loc) (hl : Lossless w.fates)
    (hrun : Db.insert L db r b setup w = (.ok (), w')) :
    b.schema = e.schema ∧ (tableData L db r).eval w'.state = .ok (e.push b).readBack := by
  rcases insert_cases hr hl hrun with ⟨-, ho⟩ | ⟨n, k, -, hready, -, hleft⟩
  · exact absurd rfl ho
  · obtain ⟨hcol, hs⟩ := h.firstSchema hL hready.first
    exact ⟨hs, (h.push_of_whole hready.count hcol hs hleft (Or.inl rfl)).eval_tableData hL hr hnul hcol
      fun c hc hd => ht c hc ((hleft.isDir_iff _).mp hd)⟩

/-- **When an insert that got to its batch file refuses it and leaves nothing behind.** -/
theorem Batches.refuses_iff (h : Batches L w.state (db.tableDir r).loc e idx) (hL : L.Lawful) (hr : r.Parsed)
    (hnul : (db.tableDir r).hasNul = false) (hcol : e.schema ≠ []) (ht : Tidy w.state (db.tableDir r).loc)
    (hl : Lossless w.fates) (hs : b.schema = e.schema) (hk : CommitmentAt L w.state (db.tableDir r).loc k)
    (hgo : ∀ f ∈ w.fates.take 4, f.stops = false) (hrun : Db.insert L db r b setup w = (o, w')) (ho : o ≠ .ok ()) :
    (o ≠ .panic ∧ (tableData L db r).eval w'.state = (tableData L db r).eval w.state) ↔
      b.rows = [] ∧ Whole L b (w.fates.drop 4) ∧
        ((∀ cut, ¬ Cuts (w.fates.drop 4) cut) → L.appendBatch k b setup ≠ .error .panic) := by
  have hready := h.ready hL hcol ht hs hk
  have hpres := present_of_dir hr hnul h.isDir
  have hfree := ht _ (isParquet_batchName (parquetNames w.state (db.tableDir r).loc).length)
  have hleft := insert_left hr hl hpres hready hgo hfree hrun
  have hun := h.unchanged_iff hL hr hnul hcol ht rfl hs hleft ho
  have hpanic : (Db.insert L db r b setup w).1 = .panic ↔ _ := insert_panic_iff hr hl
  rw [List.drop_drop] at hun
  rw [hrun] at hpanic
  rw [hun, ne_eq, hpanic]
  constructor
  · rintro ⟨hp, hrows, bytes, hb, hcut⟩
    exact ⟨hrows, ⟨bytes, hb, hcut⟩, fun hwhole hmade => hp ⟨_, k, bytes, hpres, hready, hgo, hfree, hb, hwhole, hmade⟩⟩
  · rintro ⟨hrows, hwhole, hmade⟩
    refine ⟨?_, hrows, hwhole⟩
    rintro ⟨n, k', bytes, -, hready', -, -, -, hno, hmade'⟩
    obtain rfl := hready'.commitment.unique hk
    exact hmade hno hmade'

end Insert

end Db

/-! ### Posts -/

namespace Api

open Db (isParquet_batchName)

variable {κ σ : Type} (L : Libs (List Cell) κ σ) (K : Codecs (List Cell) PostedRow) (db : Db) (setup : σ)
  (r : TableRef) (schema : Schema)

/-- The table's data has grown by the rows `posted`, in order: at its end, as long as there are fewer than `10 ^ 6`
batch files. -/
def Grown (fs : Fs) (posted : List (List Cell)) (fs' : Fs) : Prop :=
  ∃ d d' rs rs', (Db.tableData L db r).eval fs = .ok d ∧ (Db.tableData L db r).eval fs' = .ok d' ∧
    d.rows = rs ++ rs' ∧ d'.rows = rs ++ posted ++ rs' ∧
      ((Db.parquetNames fs (db.tableDir r).loc).length < 10 ^ 6 → rs' = [])

/-- A post answered with `201` was of exact rows, which the data has grown by; any other was answered with an error,
and the data is as it was. -/
structure StoredAsPosted (fs : Fs) (rows : List PostedRow) (o : Outcome RowsError ℕ) (fs' : Fs) : Prop where
  stored : o = .ok 201 → ∃ posted, List.Forall₂ (PostedRow.Is schema) rows posted ∧ Grown L db r fs posted fs'
  refused : o ≠ .ok 201 → o ≠ .panic ∧ (Db.tableData L db r).eval fs' = (Db.tableData L db r).eval fs

/-- The posts that are stored as posted, or refused. -/
inductive Storable (fs : Fs) (rows : List PostedRow) (fates : List Fate) : Prop where
  /-- The table has no columns, so its schema cannot be read. -/
  | bare (hbare : schema = [])
  /-- The decoder refuses a row. -/
  | undecoded (hdecode : K.decodeRows schema rows = none)
  /-- A system call fails before the batch file is made. -/
  | stopped {f : Fate} (hf : f ∈ fates.take 6) (hstops : f.stops = true)
  /-- The table's commitment cannot be read. -/
  | unreadable (hcommit : ∀ k, ¬ Db.CommitmentAt L fs (db.tableDir r).loc k)
  /-- There are no rows, and what was begun is written to its end. -/
  | empty {batch : RecordBatch (List Cell)} {k : κ} (hrows : rows = []) (hbatch : decodeBatch K schema rows = .ok batch)
      (hk : Db.CommitmentAt L fs (db.tableDir r).loc k) (hwhole : Db.Whole L batch (fates.drop 6))
      (hmade : (∀ cut, ¬ Db.Cuts (fates.drop 6) cut) → L.appendBatch k batch setup ≠ .error .panic)
  /-- The rows are exact, and nothing goes wrong. -/
  | exact {batch : RecordBatch (List Cell)} {k : κ} {posted : List (List Cell)}
      (hexact : List.Forall₂ (PostedRow.Is schema) rows posted) (hbatch : decodeBatch K schema rows = .ok batch)
      (hk : Db.CommitmentAt L fs (db.tableDir r).loc k)
      (haccepts : Db.Accepts L batch (L.appendBatch k batch setup)) (hgo : ∀ f ∈ fates.take 9, f.stops = false)

variable {L K db setup r schema} {cell : Field → Json → Option Cell} {fs : Fs} {e : TableLog (List Cell)} {idx : List ℕ}
  {table : Name} {rows : List PostedRow} {fates : List Fate} {o : Outcome RowsError ℕ} {w' : World Fs (Loc Name)}

/-- **One post**, on a tidy directory of whole batch files. -/
theorem storedAsPosted_iff (hL : L.Lawful) (hD : RowsDecoder K cell) (hr : TableRef.fromStr table = some r)
    (hnul : (db.tableDir r).hasNul = false) (hb : Db.Batches L fs (db.tableDir r).loc e idx)
    (ht : Db.Tidy fs (db.tableDir r).loc) (hnd : (e.schema.map Field.name).Nodup) (hl : Lossless fates)
    (hpost : insert L K db setup table rows ⟨fs, fates, []⟩ = (o, w')) :
    StoredAsPosted L db r e.schema fs rows o w'.state ↔ Storable L K db setup r e.schema fs rows fates := by
  have hparsed : r.Parsed := ⟨table, hr⟩
  have hpres := Db.present_of_dir hparsed hnul hb.isDir
  -- nothing has happened
  have hnothing : w'.state = fs → o ≠ .ok 201 → o ≠ .panic → StoredAsPosted L db r e.schema fs rows o w'.state :=
    fun hsame ho hp => ⟨fun h => absurd h ho, fun _ => ⟨hp, by rw [hsame]⟩⟩
  by_cases hcol : e.schema = []
  · have hunread : ∀ s, (Db.schema L db r).eval fs ≠ .ok s := fun s hs =>
      (hb.firstSchema hL ((Db.eval_schema_ok hparsed).mp hs).2.2).1 hcol
    obtain ⟨hsame, ho, hp⟩ := insert_unread (w := ⟨fs, fates, []⟩) hr hl hunread hpost
    exact iff_of_true (hnothing hsame ho hp) (.bare hcol)
  have hschema : (Db.schema L db r).eval fs = .ok e.schema :=
    (Db.eval_schema_ok hparsed).mpr ⟨hpres, hb.isDir, hb.firstSchema_tidy hL hcol ht⟩
  rcases insert_ends (w := ⟨fs, fates, []⟩) hr hl hschema hpost with
    ⟨hsame, ho, hp, hwhy⟩ | ⟨batch, w₁, inserted, w₂, hbatch, hgo₂, hfs, hfates, hins, hstate, hok, hpanic⟩
  · refine iff_of_true (hnothing hsame ho hp) ?_
    rcases hwhy with ⟨f, hf, hs⟩ | hdecode
    · exact .stopped (List.take_subset_take_left fates (by decide) hf) hs
    · exact .undecoded hdecode
  obtain ⟨hs, hdecoded⟩ := (hD.decodeBatch_eq_ok hnd).mp hbatch
  obtain rfl : w₁.state = fs := hfs
  change w₁.fates = fates.drop 2 at hfates
  change ∀ f ∈ fates.take 2, f.stops = false at hgo₂
  have hl₁ : Lossless w₁.fates := by rw [hfates]; exact Db.lossless_drop hl 2
  have htake : ∀ j, fates.take (2 + j) = fates.take 2 ++ w₁.fates.take j := fun j => by rw [hfates, List.take_add]
  by_cases hblock : (∃ f ∈ w₁.fates.take 4, f.stops = true) ∨ ∀ k, ¬ Db.CommitmentAt L w₁.state (db.tableDir r).loc k
  · obtain ⟨hsame, hi, hp⟩ := Db.insert_blocked hparsed hl₁ hblock hins
    refine iff_of_true (hnothing (hstate.trans hsame) (fun h => hi (hok.mp h)) fun h => hp (hpanic.mp h)) ?_
    rcases hblock with ⟨f, hf, hs⟩ | hcommit
    · exact .stopped (f := f) (by rw [htake 4]; exact List.mem_append_right _ hf) hs
    · exact .unreadable hcommit
  rw [not_or] at hblock
  simp only [not_exists, not_and, Bool.not_eq_true, not_forall, not_not] at hblock
  obtain ⟨hgo₄, k, hk⟩ := hblock
  -- the four ways to be refused early are out
  have hlate : Storable L K db setup r e.schema w₁.state rows fates ↔
      (rows = [] ∧ Db.Whole L batch (w₁.fates.drop 4) ∧
        ((∀ cut, ¬ Db.Cuts (w₁.fates.drop 4) cut) → L.appendBatch k batch setup ≠ .error .panic)) ∨
      ((∃ posted, List.Forall₂ (PostedRow.Is e.schema) rows posted) ∧
        Db.Accepts L batch (L.appendBatch k batch setup) ∧ ∀ f ∈ w₁.fates.take 7, f.stops = false) := by
    have hdrop : fates.drop 6 = w₁.fates.drop 4 := by rw [hfates, List.drop_drop]
    constructor
    · intro h
      cases h with
      | bare hbare => exact absurd hbare hcol
      | undecoded hdecode =>
        obtain ⟨decoded, hd, -⟩ := decodeBatch_eq_ok.mp hbatch
        rw [hdecode] at hd
        simp at hd
      | stopped hf hstops =>
        rw [htake 4, List.mem_append] at hf
        rw [hf.elim (hgo₂ _) (hgo₄ _)] at hstops
        simp at hstops
      | unreadable hcommit => exact absurd hk (hcommit k)
      | empty hrows hbatch' hk' hwhole hmade =>
        obtain rfl := Outcome.ok.inj (hbatch.symm.trans hbatch')
        obtain rfl := hk.unique hk'
        rw [hdrop] at hwhole hmade
        exact Or.inl ⟨hrows, hwhole, hmade⟩
      | exact hexact hbatch' hk' haccepts hgo =>
        obtain rfl := Outcome.ok.inj (hbatch.symm.trans hbatch')
        obtain rfl := hk.unique hk'
        refine Or.inr ⟨⟨_, hexact⟩, haccepts, fun f hf => hgo f ?_⟩
        rw [htake 7]
        exact List.mem_append_right _ hf
    · rintro (⟨hrows, hwhole, hmade⟩ | ⟨⟨posted, hexact⟩, haccepts, hgo⟩)
      · exact .empty hrows hbatch hk (hdrop ▸ hwhole) (hdrop ▸ hmade)
      · refine .exact hexact hbatch hk haccepts fun f hf => ?_
        rw [htake 7, List.mem_append] at hf
        exact hf.elim (hgo₂ f) (hgo f)
  rw [hlate]
  by_cases hi : inserted = .ok ()
  · subst hi
    have ho : o = .ok 201 := hok.mpr rfl
    have hfree := ht _ (isParquet_batchName (Db.parquetNames w₁.state (db.tableDir r).loc).length)
    have haccepts := (Db.insert_ok_iff hparsed hl₁ hpres (hb.ready hL hcol ht hs hk) hfree).mp (by rw [hins])
    have hgrown : Grown L db r w₁.state batch.rows w'.state := by
      obtain ⟨rs, rs', h, h', hend⟩ := e.readBack_push batch
      refine ⟨_, _, rs, rs', hb.eval_tableData hL hparsed hnul hcol ht, ?_, h, h', fun hlt => hend ?_⟩
      · rw [hstate]
        exact (hb.eval_tableData_insert hL hparsed hnul ht hl₁ hins).2
      · rwa [hb.names_eq ht, List.length_map, TableLog.length_readOrder] at hlt
    constructor
    · intro h
      obtain ⟨posted, hexact, -⟩ := h.stored ho
      exact Or.inr ⟨⟨posted, hexact⟩, haccepts⟩
    · intro h
      have hexact : ∃ posted, List.Forall₂ (PostedRow.Is e.schema) rows posted := by
        rcases h with ⟨rfl, -⟩ | ⟨hexact, -⟩
        · exact ⟨[], .nil⟩
        · exact hexact
      obtain ⟨posted, hexact⟩ := hexact
      exact ⟨fun _ => ⟨posted, hexact, hD.rows_exact hnd hbatch hexact ▸ hgrown⟩, fun h => absurd ho h⟩
  · have ho : o ≠ .ok 201 := fun h => hi (hok.mp h)
    have hrows : batch.rows = [] ↔ rows = [] := by
      rw [← List.length_eq_zero_iff, ← hdecoded.length_eq, List.length_eq_zero_iff]
    have hrefuses := hb.refuses_iff hL hparsed hnul hcol ht hl₁ hs hk hgo₄ hins hi
    rw [hrows, ← hstate, ne_eq, ← hpanic] at hrefuses
    rw [← hrefuses]
    constructor
    · exact fun h => Or.inl (h.refused ho)
    · rintro (h | ⟨-, haccepts⟩)
      · exact ⟨fun h' => absurd h' ho, fun _ => h⟩
      · have hfree := ht _ (isParquet_batchName (Db.parquetNames w₁.state (db.tableDir r).loc).length)
        have := (Db.insert_ok_iff hparsed hl₁ hpres (hb.ready hL hcol ht hs hk) hfree).mpr haccepts
        rw [hins] at this
        exact absurd this hi

/-! ### Runs -/

variable (L K db setup r schema)

/-- One change of the service's files, seen from the table: a post to it, by whatever name, whose batch file is written
to its end once it is begun; or a change elsewhere, that keeps the table's directory tidy. -/
inductive TableStep (fs : Fs) : Option (List PostedRow) → Fs → Prop where
  | post {table' : Name} {r' : TableRef} {rows : List PostedRow} {fates : List Fate} {o : Outcome RowsError ℕ}
      {w' : World Fs (Loc Name)} (hr : TableRef.fromStr table' = some r')
      (hloc : (db.tableDir r').loc = (db.tableDir r).loc) (hl : Lossless fates)
      (hrun : insert L K db setup table' rows ⟨fs, fates, []⟩ = (o, w'))
      (hwhole : ∀ batch, decodeBatch K schema rows = .ok batch → Db.Whole L batch (fates.drop 6)) :
      TableStep fs (some rows) w'.state
  | other {fs' : Fs} (hkept : Db.Kept fs fs' (db.tableDir r).loc) (ht : Db.Tidy fs' (db.tableDir r).loc) :
      TableStep fs none fs'

variable {L K db setup r schema}

/-- **One change.** -/
theorem TableStep.keeps (hL : L.Lawful) (hD : RowsDecoder K cell) (hnd : (schema.map Field.name).Nodup) {fs' : Fs}
    {rows : Option (List PostedRow)} (hstep : TableStep L K db setup r schema fs rows fs')
    (hb : Db.Batches L fs (db.tableDir r).loc e idx) (ht : Db.Tidy fs (db.tableDir r).loc) (hs : e.schema = schema) :
    ∃ e' idx', Db.Batches L fs' (db.tableDir r).loc e' idx' ∧ Db.Tidy fs' (db.tableDir r).loc ∧ e'.schema = schema := by
  cases hstep with
  | other hkept ht' => exact ⟨e, idx, hb.frame hkept, ht', hs⟩
  | @post table' r' rows fates o w' hr hloc hl hrun hwhole =>
    rw [← hloc] at hb ht ⊢
    have hparsed : r'.Parsed := ⟨table', hr⟩
    by_cases hread : ∃ schema', (Db.schema L db r').eval fs = .ok schema'
    · obtain ⟨schema', hread⟩ := hread
      obtain rfl : schema' = schema := hs ▸ (hb.firstSchema hL ((Db.eval_schema_ok hparsed).mp hread).2.2).2
      rcases insert_ends (w := ⟨fs, fates, []⟩) hr hl hread hrun with
        ⟨hsame, -⟩ | ⟨batch, w₁, inserted, w₂, hbatch, -, hfs, hfates, hins, hstate, -⟩
      · exact ⟨e, idx, hsame ▸ hb, hsame ▸ ht, hs⟩
      obtain ⟨hbs, -⟩ := (hD.decodeBatch_eq_ok hnd).mp hbatch
      obtain rfl : w₁.state = fs := hfs
      change w₁.fates = fates.drop 2 at hfates
      rw [hstate]
      rcases Db.insert_cases hparsed (by rw [hfates]; exact Db.lossless_drop hl 2) hins with
        ⟨hsame, -⟩ | ⟨n, k, -, hready, -, hleft⟩
      · exact ⟨e, idx, hsame ▸ hb, hsame ▸ ht, hs⟩
      · refine ⟨_, _,
          hb.push_of_whole hready.count (hb.firstSchema hL hready.first).1 (hbs.trans hs.symm) hleft (Or.inr ?_),
          fun c hc hd => ht c hc ((hleft.isDir_iff _).mp hd), hs⟩
        have h6 := hwhole batch hbatch
        rwa [hfates, List.drop_drop, List.drop_drop]
    · obtain ⟨hsame, -⟩ := insert_unread (w := ⟨fs, fates, []⟩) hr hl (fun s h => hread ⟨s, h⟩) hrun
      exact ⟨e, idx, hsame ▸ hb, hsame ▸ ht, hs⟩

/-- **Posted rows are stored as posted, or refused, exactly if** the table has no columns, or the decoder or an early
failure turns them away, or there are none, or they are exact and the libraries take them.  This is so of every next
post to a table that was created through the API, after any run of changes. -/
theorem posted_rows_stored_iff (hL : L.Lawful) (hdistinct : ∀ b c, L.Commits c b → (b.schema.map Field.name).Nodup)
    (hD : RowsDecoder K cell) {columns : List ColumnJson} {w w₁ : World Fs (Loc Name)} (hl : Lossless w.fates)
    (hbefore : createBefore K table columns = .ok (r, schema))
    (hcreate : create L K db setup table columns w = (.ok 201, w₁)) {hist : List (Option (List PostedRow))}
    (hrun : Runs (TableStep L K db setup r schema) w₁.state hist fs) (hlf : Lossless fates)
    (hpost : insert L K db setup table rows ⟨fs, fates, []⟩ = (o, w')) :
    StoredAsPosted L db r schema fs rows o w'.state ↔ Storable L K db setup r schema fs rows fates := by
  obtain ⟨r', schema', hbefore', hcreated, -⟩ := create_eq_ok.mp hcreate
  obtain ⟨rfl, rfl⟩ : r' = r ∧ schema' = schema := by
    have := Outcome.ok.inj (hbefore'.symm.trans hbefore)
    rwa [Prod.mk.injEq] at this
  obtain ⟨htable, -⟩ := createBefore_eq_ok.mp hbefore
  have hparsed : r'.Parsed := ⟨table, htable⟩
  obtain ⟨hnul, hnew⟩ := Db.Stored.of_createTable hparsed hl hcreated
  have hnd : (schema'.map Field.name).Nodup := by
    obtain ⟨k, -, hk⟩ := hnew.commitment
    exact hdistinct _ _ hk
  obtain ⟨e, idx, hb, ht, rfl⟩ := hrun.invariant (P := fun _ fs => ∃ e idx,
      Db.Batches L fs (db.tableDir r').loc e idx ∧ Db.Tidy fs (db.tableDir r').loc ∧ e.schema = schema')
    (A := fun _ => True) (fun _ _ => trivial)
    ⟨_, _, hnew.toBatches, Db.tidy_of_createTable hparsed hl hcreated, rfl⟩
    fun _ _ _ _ _ h hstep => by
      obtain ⟨e, idx, hb, ht, hs⟩ := h
      exact hstep.keeps hL hD hnd hb ht hs
  exact storedAsPosted_iff hL hD htable hnul hb ht hnd hlf hpost

section Sample

open SampleLibs (ids home people via via_lawful via_commit)

/-- A row of one small number is a byte. -/
def toByte : List Cell → Option UInt8
  | [.integer n] => if 0 ≤ n ∧ n < 256 then some (UInt8.ofNat n.toNat) else none
  | _ => none

def ofByte (b : UInt8) : List Cell := [.integer b.toNat]

theorem eq_ofByte {cells : List Cell} {b : UInt8} (h : toByte cells = some b) : cells = ofByte b := by
  rw [toByte.eq_def] at h
  split at h
  · split at h
    · rename_i n hn
      obtain rfl := Option.some.inj h
      have hlt : n.toNat < 256 := by omega
      have hback : ((n.toNat % 2 ^ 8 : ℕ) : ℤ) = n := by omega
      rw [ofByte, UInt8.toNat_ofNat', hback]
    · simp at h
  · simp at h

/-- The libraries of the sample service, for rows of cells. -/
def cellLibs : Libs (List Cell) (RecordBatch UInt8) ℕ := via SampleService.libs toByte ofByte

theorem cellLibs_lawful : cellLibs.Lawful := via_lawful SampleService.libs_lawful fun _ _ => eq_ofByte

/-- Numbers are cut to integers, everything else is taken as it is or not at all. -/
def readCell (field : Field) : Json → Option Cell
  | .bool b => if field.dataType = .boolean then some (.boolean b) else none
  | .string s => if field.dataType = .utf8 then some (.text s) else none
  | .number q => field.dataType.machineInt.bind fun m =>
      if m.Holds (q.num.tdiv q.den) then some (.integer (q.num.tdiv q.den)) else none
  | _ => none

/-- Rows of cells, taken from JSON. -/
def cellCodecs : Codecs (List Cell) PostedRow where
  writeJson _ := none
  parseRows _ := none
  decodeRows schema rows :=
    match rows with
    | [] => some none
    | row :: rows => ((row :: rows).mapM (decodeRow readCell schema)).map fun decoded => some ⟨schema, decoded⟩
  base64Encode := SampleService.codecs.base64Encode
  base64Decode := SampleService.codecs.base64Decode
  writeResponse _ := []
  parseResponse _ := none
  prettyFormat _ := none
  parseDataType := SampleService.codecs.parseDataType

theorem rowsDecoder : RowsDecoder cellCodecs readCell where
  empty _ := rfl
  rows schema rows _ h := by
    cases rows with
    | nil => exact absurd rfl h
    | cons row rows => rfl
  exact field value h := by
    rcases value with b | n | s
    · exact if_pos h
    · obtain ⟨m, hm, hn⟩ := h
      rw [Cell.json, readCell, hm, Option.bind_some, Rat.num_intCast, Rat.den_intCast, Int.ofNat_one, Int.tdiv_one,
        if_pos hn]
    · exact if_pos h

/-- A posted `id`. -/
def postedId (n : ℤ) : PostedRow := .object (IndexMap.collect [("id".toList, .number n)])

theorem postedId_is (n : ℤ) (hn : MachineInt.i64.Holds n) : (postedId n).Is ids [.integer n] where
  keys name := by
    rw [IndexMap.collect, List.foldl_cons, List.foldl_nil, IndexMap.lookup_insert]
    simp [ids, IndexMap.lookup, IndexMap.empty]
  values := .cons ⟨IndexMap.lookup_collect_one _ _, .i64, rfl, hn⟩ .nil

theorem parsed_people : TableRef.fromStr people.toString = some people := by decide

def idColumn : List ColumnJson := [⟨"id".toList, "BIGINT".toList⟩]

/-- A table just created, a row posted to it, and two more. -/
def cellsCreated : World Fs (Loc Name) :=
  (create cellLibs cellCodecs ⟨home⟩ 9 people.toString idColumn ⟨Db.sampleStart, [], []⟩).2

def cellsPosted : World Fs (Loc Name) :=
  (insert cellLibs cellCodecs ⟨home⟩ 9 people.toString [postedId 1] ⟨cellsCreated.state, [], []⟩).2

def cellsPostedNext : Outcome RowsError ℕ × World Fs (Loc Name) :=
  insert cellLibs cellCodecs ⟨home⟩ 9 people.toString [postedId 2, postedId 3] ⟨cellsPosted.state, [], []⟩

theorem distinct_of_commits (b : RecordBatch (List Cell)) (c : RecordBatch UInt8) (h : cellLibs.Commits c b) :
    (b.schema.map Field.name).Nodup := by
  obtain ⟨setup, hc⟩ := h
  obtain ⟨rows, -, hc⟩ := via_commit.mp hc
  exact (SampleService.commitBatch_eq_ok.mp hc).1.1

theorem cells_before : createBefore cellCodecs people.toString idColumn = .ok (people, ids) := by decide +kernel

theorem cells_created : create cellLibs cellCodecs ⟨home⟩ 9 people.toString idColumn ⟨Db.sampleStart, [], []⟩
    = (.ok 201, cellsCreated) := Prod.ext (by decide +kernel) rfl

theorem posted_rows_stored_iff_sample :
    StoredAsPosted cellLibs ⟨home⟩ people ids cellsPosted.state [postedId 2, postedId 3] cellsPostedNext.1
      cellsPostedNext.2.state := by
  have hpost : insert cellLibs cellCodecs ⟨home⟩ 9 people.toString [postedId 1] ⟨cellsCreated.state, [], []⟩
      = (.ok 201, cellsPosted) := Prod.ext (by decide +kernel) rfl
  have hrun : Runs (TableStep cellLibs cellCodecs ⟨home⟩ 9 people ids) cellsCreated.state [some [postedId 1]]
      cellsPosted.state := by
    refine Runs.cons (.post parsed_people rfl Lossless.nil hpost fun batch hbatch => ?_) .nil
    have hdecode : decodeBatch cellCodecs ids [postedId 1] = .ok ⟨ids, [[.integer 1]]⟩ := by decide +kernel
    obtain rfl := Outcome.ok.inj (hdecode.symm.trans hbatch)
    exact ⟨_, rfl, fun cut hcut => absurd hcut (Db.not_cuts rfl cut)⟩
  have hexact : List.Forall₂ (PostedRow.Is ids) [postedId 2, postedId 3] [[.integer 2], [.integer 3]] :=
    .cons (postedId_is 2 (by decide)) (.cons (postedId_is 3 (by decide)) .nil)
  have hbatch : decodeBatch cellCodecs ids [postedId 2, postedId 3] = .ok ⟨ids, [[.integer 2], [.integer 3]]⟩ := by
    decide +kernel
  have hk : Db.CommitmentAt cellLibs cellsPosted.state ((⟨home⟩ : Db).tableDir people).loc ⟨ids, [1]⟩ :=
    ⟨[0, 1, 1, 0], 4, by decide +kernel, by decide +kernel⟩
  exact (posted_rows_stored_iff cellLibs_lawful distinct_of_commits rowsDecoder Lossless.nil cells_before cells_created
    hrun Lossless.nil rfl).mpr (.exact hexact hbatch hk ⟨_, _, _, rfl, rfl, rfl⟩ (by simp))

/-- A row with a fraction, and with a member that no column asks for. -/
def alteredRow : PostedRow :=
  .object (IndexMap.collect [("id".toList, .number (3 / 2)), ("note".toList, .string "hi".toList)])

def alteredPost : Outcome RowsError ℕ × World Fs (Loc Name) :=
  insert cellLibs cellCodecs ⟨home⟩ 9 people.toString [alteredRow] ⟨cellsCreated.state, [], []⟩

/-- **An altered row is answered with `201`**: the fraction is cut off, the other member dropped. -/
theorem altered_row_is_stored :
    alteredPost.1 = .ok 201 ∧
      (Db.tableData cellLibs ⟨home⟩ people).eval alteredPost.2.state = .ok ⟨ids, [[.integer 1]]⟩ ∧
      ¬ StoredAsPosted cellLibs ⟨home⟩ people ids cellsCreated.state [alteredRow] alteredPost.1 alteredPost.2.state := by
  have hok : alteredPost.1 = .ok 201 := by decide +kernel
  refine ⟨hok, by decide +kernel, fun h => ?_⟩
  obtain ⟨posted, hposted, -⟩ := h.stored hok
  obtain ⟨cells, rest, hrow, -, -⟩ := List.forall₂_cons_left_iff.mp hposted
  have hkey := (RowIs.keys hrow "note".toList).mp (by decide +kernel)
  exact absurd hkey (by decide)

end Sample

end Api

end SxtEnterprise
