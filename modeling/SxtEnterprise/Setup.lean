import SxtEnterprise.Disk

/-!
# Loading the powers of tau

`setup/prover.rs`.  A setup is the first powers of a ceremony.  It is kept as its compressed points, one
after the other, so that a file holds as many powers as whole points fit in it, and a setup is read from the
start of the file whatever follows.  A ceremony's own files are downloaded.
-/

namespace SxtEnterprise

open NumberedNames FaultyRun

/-- Failure to load powers of tau. -/
inductive SetupError where
  | read
  | tooSmall (available wanted : ℕ)
  | deserialize
  | ptau (reason : Name)
  | download
  deriving DecidableEq

instance : FromIo SetupError := ⟨.read⟩

/-- What loading calls, for points `π`. -/
structure Curve (π : Type) where
  /-- `serialize_compressed`. -/
  compress : π → Bytes
  /-- `deserialize_flat_compressed_hyperkzg_public_setup_from_slice`, every point validated. -/
  decompress : Bytes → Option (List π)
  /-- `read_ptau` of so many powers, as points of a public setup. -/
  readPtau : Bytes → ℕ → Except Name (List π)

/-- What a download of at most so many bytes gives, if it goes well. -/
abbrev Net := Name → ℕ → Option Bytes

namespace Setup

variable {π : Type} (C : Curve π)

/-- Bytes per compressed point. -/
def pointSize : ℕ := 32

/-- What a machine word holds of `n`. -/
def word (n : ℕ) : ℕ := n % 2 ^ 64

/-- Deserializes the first `points` powers from a flat compressed setup. -/
def fromCompressed (bytes : Bytes) (points : ℕ) : Except SetupError (List π) :=
  let wanted := word (points * pointSize)
  if wanted ≤ bytes.length then
    match C.decompress (bytes.take wanted) with
    | some powers => .ok powers
    | none => .error .deserialize
  else .error (.tooSmall (bytes.length / pointSize) points)

/-- Flat-compresses `setup`'s powers, in the format `fromFile` reads back. -/
def toCompressed (setup : List π) : Bytes := setup.flatMap C.compress

/-- Takes the first `points` powers of tau from the compressed setup at `path`. -/
def fromFile (path : Paths.Path) (points : ℕ) : Io SetupError (List π) := do
  let bytes ← Disk.read path
  Prog.ofOutcome (.ofExcept (fromCompressed C bytes points))

/-- How many bytes of a file holding `points` powers are downloaded at most. -/
def downloadLimit (points : ℕ) : ℕ := word (word (points * 1152) + 2 ^ 20)

/-- Downloads the `.ptau` at `url` and takes its first `points` powers of tau. -/
def fromPtauUrl (net : Net) (url : Name) (points : ℕ) : Except SetupError (List π) :=
  match net url (downloadLimit points) with
  | none => .error .download
  | some ptau =>
    match C.readPtau ptau points with
    | .ok powers => .ok powers
    | .error reason => .error (.ptau reason)

end Setup

end SxtEnterprise
