import SxtEnterprise.ProofSystem

/-!
# Verifying a proved query

`verify.rs`.  No database here: the commitments are whatever the caller gathered, and they are both what
the statement is planned against and what the proof is checked against.
-/

namespace SxtEnterprise

open NumberedNames FaultyRun

/-- Failure to verify a proved query. -/
inductive VerifyError where
  | parse
  | statementCount (count : ℕ)
  | tableName
  | unknownTable (tableRef : TableRef)
  | plan
  | verify
  | result
  deriving DecidableEq

namespace Verify

variable {ρ κ σ : Type} (P : ProofSystem ρ κ σ)

/-- The columns of the tables committed to, as the planner knows them. -/
def commitmentAccessor (commitments : IndexMap TableRef κ) (tableRef : TableRef) :
    Option (IndexMap Name ColumnType) := (commitments.lookup tableRef).map P.columnMetadata

/-- The `RecordBatch` of a verified table. -/
def toRecordBatch (table : OwnedTable P.Scalar P.Value) : Outcome VerifyError (RecordBatch ρ) :=
  Failure.toOutcome .result (P.recordBatch table)

/-- Verifies `proof` proves `sql` against `commitments`, returning the verified result. -/
def verify (sql : Name) (commitments : IndexMap TableRef κ) (proof : P.Proof) :
    Outcome VerifyError (RecordBatch ρ) := do
  let statements ← .ofOption .parse (P.parseSql sql)
  match statements with
  | [statement] =>
    let tableRefs ← .ofOption .tableName (P.tableRefs statement)
    match tableRefs.find? fun tableRef => tableRef ∉ commitments.keys with
    | some tableRef => .err (.unknownTable tableRef)
    | none =>
      let plans ← Failure.toOutcome .plan (P.plans [statement] (commitmentAccessor P commitments))
      match plans with
      | [] => .panic
      | plan :: _ =>
        let verified ← .ofOption .verify (P.verifyProof proof plan commitments)
        toRecordBatch P verified
  | _ => .err (.statementCount statements.length)

/-- **What a successful verification has done.** -/
theorem verify_eq_ok {sql : Name} {commitments : IndexMap TableRef κ} {proof : P.Proof} {batch : RecordBatch ρ} :
    verify P sql commitments proof = .ok batch ↔
      ∃ statement tableRefs plan rest table, P.parseSql sql = some [statement] ∧
        P.tableRefs statement = some tableRefs ∧ (∀ r ∈ tableRefs, r ∈ commitments.keys) ∧
        P.plans [statement] (commitmentAccessor P commitments) = .ok (plan :: rest) ∧
        P.verifyProof proof plan commitments = some table ∧ P.recordBatch table = .ok batch := by
  rw [verify, Outcome.bind_eq_ok]
  simp only [Outcome.ofOption_eq_ok]
  constructor
  · rintro ⟨statements, hparse, h⟩
    split at h
    · rename_i statement
      obtain ⟨tableRefs, hrefs, h⟩ := Outcome.bind_eq_ok.mp h
      rw [Outcome.ofOption_eq_ok] at hrefs
      split at h
      · simp at h
      · rename_i hfind
        obtain ⟨plans, hplans, h⟩ := Outcome.bind_eq_ok.mp h
        rw [Failure.toOutcome_eq_ok] at hplans
        split at h
        · simp at h
        · rename_i plan rest
          obtain ⟨table, hverify, h⟩ := Outcome.bind_eq_ok.mp h
          rw [Outcome.ofOption_eq_ok] at hverify
          refine ⟨statement, tableRefs, plan, rest, table, hparse, hrefs, ?_, hplans, hverify, ?_⟩
          · simpa using hfind
          · rwa [toRecordBatch, Failure.toOutcome_eq_ok] at h
    · simp at h
  · rintro ⟨statement, tableRefs, plan, rest, table, hparse, hrefs, hkeys, hplans, hverify, hbatch⟩
    refine ⟨_, hparse, ?_⟩
    have hfind : tableRefs.find? (fun tableRef => tableRef ∉ commitments.keys) = none := by
      simpa using hkeys
    simp only [Outcome.bind_eq_ok, Outcome.ofOption_eq_ok]
    refine ⟨_, hrefs, ?_⟩
    rw [hfind]
    refine Outcome.bind_eq_ok.mpr ⟨_, Failure.toOutcome_eq_ok.mpr hplans, ?_⟩
    refine Outcome.bind_eq_ok.mpr ⟨_, Outcome.ofOption_eq_ok.mpr hverify, ?_⟩
    rwa [toRecordBatch, Failure.toOutcome_eq_ok]

end Verify

end SxtEnterprise
