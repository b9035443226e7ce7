import SxtEnterprise.Api
import SxtEnterprise.Setup
import SxtEnterprise.Verify

/-!
# The command line

`cli.rs`.  `serve` takes its setup from a cache file in the data directory, downloading what the cache does
not hold (`resolveSetup`); `setup` downloads one to a file.  `verify` gathers a commitment for each key of the
response's `tables`, from a database's own directory if there is one (`pinnedCommitment`) and otherwise from the
response itself, and hands them to the verifier.
-/

namespace SxtEnterprise

open NumberedNames Paths FaultyRun

/-- Failure to run a command. -/
inductive CliError where
  | io
  | setup (error : SetupError)
  | db (error : DbError)
  | response
  | base64
  | decode
  | tableName
  | verify (error : VerifyError)
  | arrow
  deriving DecidableEq

instance : FromIo CliError := ⟨.io⟩

namespace Cli

/-- The default data directory, under what `HOME` names. -/
def defaultDataDir (home : Path) : Path := home.join ".sxt-enterprise".toList

/-! ### The setup -/

/-- `next_power_of_two`, which wraps past the largest power of a machine word. -/
def nextPowerOfTwo (n : ℕ) : ℕ := Setup.word (if n ≤ 1 then 1 else 2 ^ ((n - 1).log2 + 1))

/-- The smallest power-of-two proving capacity that covers `rows`. -/
def capacityFor (rows : ℕ) : ℕ := nextPowerOfTwo (max rows 1)

/-- The ceremony file of a power. -/
def ceremonyFile (power : ℕ) : Name :=
  "https://pse-trusted-setup-ppot.s3.eu-central-1.amazonaws.com/pot28_0080/ppot_0080_".toList ++
    numbered 2 ".ptau".toList power

/-- The ceremony file whose powers cover `capacity`. -/
def ptauUrlFor (capacity : ℕ) : Name := ceremonyFile capacity.log2

/-- Where the setup is kept. -/
def cacheName : Name := "setup.bin".toList

section Setup

variable {π : Type} (C : Curve π)

/-- `capacity` powers of the ceremony, downloaded and written to `cache`.  A capacity of zero has no
ceremony file: its logarithm panics. -/
def downloadSetup (net : Net) (cache : Path) (capacity : ℕ) : Io CliError (List π) := do
  if capacity = 0 then Prog.ofOutcome .panic else
  let setup ← Prog.mapErr .setup (Prog.ofOutcome (.ofExcept (Setup.fromPtauUrl C net (ptauUrlFor capacity) capacity)))
  Disk.write cache (Setup.toCompressed C setup)
  pure setup

/-- Resolves `rows` of proving capacity from the cache in `dataDir`, downloading and caching a ceremony file
if the cache is missing or too small. -/
def resolveSetup (net : Net) (dataDir : Path) (rows : ℕ) : Io CliError (List π) := do
  let capacity := capacityFor rows
  let cache := dataDir.join cacheName
  let present ← Disk.pathExists cache
  if present then
    let cached ← Prog.attempt (Setup.fromFile C cache capacity)
    match cached with
    | .ok setup => pure setup
    | .error (.tooSmall _ _) => downloadSetup C net cache capacity
    | .error e => Prog.fail (.setup e)
  else downloadSetup C net cache capacity

/-- What `serve` does before it listens: the database and the setup it serves with. -/
def serve (net : Net) (data : Loc Name) (rows : ℕ) : Io CliError (Db × List π) := do
  Disk.createDirAll (Path.ofLoc data)
  let setup ← resolveSetup C net (Path.ofLoc data) rows
  let db ← Prog.mapErr .db (Db.openAt data)
  pure (db, setup)

end Setup

/-! ### Verifying a response -/

section Verify

variable {ρ κ σ ω : Type} (L : Libs ρ κ σ) (P : ProofSystem ρ κ σ) (K : Codecs ρ ω)

/-- Reads `tableRef`'s pinned commitment from `dir`, a database's own data directory. -/
def pinnedCommitment (dir : Path) (tableRef : Name) : Io CliError (TableRef × κ) := do
  let bytes ← Disk.read ((dir.join tableRef).join Db.commitName)
  let read ← Prog.ofOption .decode (L.deserialize bytes)
  let parsed ← Prog.ofOption .tableName (TableRef.fromStr tableRef)
  pure (parsed, read.1)

/-- Base64-decodes `encoded`. -/
def decodeBase64 (encoded : Name) : Outcome CliError Bytes := .ofOption .base64 (K.base64Decode encoded)

/-- Base64-decodes and standard-binary-deserializes a commitment. -/
def decodeCommitment (encoded : Name) : Outcome CliError κ := do
  let bytes ← decodeBase64 K encoded
  let read ← .ofOption .decode (L.deserialize bytes)
  pure read.1

/-- The commitment a response itself reports. -/
def reportedCommitment (e : Name × QueriedTable) : Outcome CliError (TableRef × κ) := do
  let tableRef ← .ofOption .tableName (TableRef.fromStr e.1)
  let commitment ← decodeCommitment L K e.2.commitment
  pure (tableRef, commitment)

/-- Decodes a response's proof. -/
def decodeProof (encoded : Name) : Outcome CliError P.Proof := do
  let bytes ← decodeBase64 K encoded
  let read ← .ofOption .decode (P.deserializeProof bytes)
  pure read.1

/-- The commitments for the tables of a response, iterated in the order `tables`. -/
def gatherCommitments (dir : Path) (tables : List (Name × QueriedTable)) : Io CliError (List (TableRef × κ)) := do
  let present ← Disk.pathExists dir
  if present then tables.mapM fun e => pinnedCommitment L dir e.1
  else Prog.ofOutcome (tables.mapM (reportedCommitment L K))

/-- Verifies `sql` against the response saved at `responsePath`, whose hash map is iterated in the order
`order` gives it: what is printed. -/
def verifyCommand (order : List (Name × QueriedTable) → List (Name × QueriedTable)) (home : Path) (sql : Name)
    (responsePath : Path) (commitmentsDir : Option Path) : Io CliError Name := do
  let bytes ← Disk.read responsePath
  let response ← Prog.ofOption .response (K.parseResponse bytes)
  let dir := commitmentsDir.getD (defaultDataDir home)
  let commitments ← gatherCommitments L K dir (order response.tables.entries)
  let proof ← Prog.ofOutcome (decodeProof P K response.proof)
  let verified ← Prog.ofOutcome ((Verify.verify P sql (IndexMap.collect commitments) proof).mapErr .verify)
  Prog.ofOption .arrow (K.prettyFormat verified)

end Verify

end Cli

end SxtEnterprise
