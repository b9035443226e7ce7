import SxtEnterprise.Cli
import SxtEnterprise.SetupFormat

/-!
# How large a setup is asked for

The capacity is a power of two, and every size computed from it is a machine word: the length of a
compressed setup is `32` bytes for each power, the most a download may be `1152` and a mebibyte more.  The
first of these to wrap is the limit of the download, past `2 ^ 53` powers.
-/

namespace SxtEnterprise

open NumberedNames Paths FaultyRun

namespace Cli

open Setup (word pointSize word_of_lt)

/-- All that is computed from a number of rows is what it is meant to be. -/
structure SizesRight {π : Type} (C : Curve π) (rows : ℕ) : Prop where
  /-- The capacity is the least power of two that covers the rows. -/
  least : ∃ k, capacityFor rows = 2 ^ k ∧ rows ≤ 2 ^ k ∧ ∀ j, rows ≤ 2 ^ j → k ≤ j
  /-- The ceremony file is never looked for when there is no capacity to look for. -/
  reached : ∀ net dir, (resolveSetup C net dir rows).NoPanic
  /-- The ceremony file asked for is that of the capacity's power. -/
  url : ∃ k, capacityFor rows = 2 ^ k ∧ ptauUrlFor (capacityFor rows) = ceremonyFile k
  /-- A file gives that many powers or none. -/
  exact : ∀ path fs s, (Setup.fromFile C path (capacityFor rows)).eval fs = .ok s → s.length = capacityFor rows
  /-- A file with fewer powers is too small. -/
  tooSmall : ∀ path fs bytes, path.hasNul = false → node fs path = some (.file bytes) →
    bytes.length < pointSize * capacityFor rows →
      (Setup.fromFile C path (capacityFor rows)).eval fs
        = .err (.tooSmall (bytes.length / pointSize) (capacityFor rows))
  /-- A download may be as long as the powers need. -/
  limit : 1152 * capacityFor rows ≤ Setup.downloadLimit (capacityFor rows)

/-- Up to the largest power of two of a machine word the next one is found. -/
theorem nextPowerOfTwo_spec {n : ℕ} (h0 : 1 ≤ n) (h : n ≤ 2 ^ 63) :
    ∃ k, nextPowerOfTwo n = 2 ^ k ∧ n ≤ 2 ^ k ∧ ∀ j, n ≤ 2 ^ j → k ≤ j := by
  by_cases h1 : n ≤ 1
  · exact ⟨0, by rw [nextPowerOfTwo, if_pos h1]; rfl, by simpa using h1, fun j _ => Nat.zero_le j⟩
  · have hm : n - 1 ≠ 0 := by omega
    have hupper := Nat.lt_log2_self (n := n - 1)
    have hk : (n - 1).log2 < 63 := (Nat.log2_lt hm).mpr (by omega)
    refine ⟨(n - 1).log2 + 1, ?_, by omega, fun j hj => ?_⟩
    · rw [nextPowerOfTwo, if_neg h1, word_of_lt]
      exact Nat.pow_lt_pow_right (by decide) (by omega)
    · exact (Nat.log2_lt hm).mpr (by omega)

/-- Past it the next power of two wraps to zero. -/
theorem nextPowerOfTwo_wraps {n : ℕ} (h : 2 ^ 63 < n) (hn : n < 2 ^ 64) : nextPowerOfTwo n = 0 := by
  have hlog : (n - 1).log2 = 63 := (Nat.log2_eq_iff (by omega)).mpr ⟨by omega, by omega⟩
  rw [nextPowerOfTwo, if_neg (by omega), hlog]
  rfl

theorem capacityFor_spec {rows : ℕ} (h : rows ≤ 2 ^ 63) :
    ∃ k, capacityFor rows = 2 ^ k ∧ rows ≤ 2 ^ k ∧ ∀ j, rows ≤ 2 ^ j → k ≤ j := by
  obtain ⟨k, hk, hle, hleast⟩ := nextPowerOfTwo_spec (n := max rows 1) (by omega) (by omega)
  exact ⟨k, hk, by omega, fun j hj => hleast j (max_le hj Nat.one_le_two_pow)⟩

theorem capacityFor_le {rows k : ℕ} (h : rows ≤ 2 ^ k) (hk : k ≤ 63) : capacityFor rows ≤ 2 ^ k := by
  obtain ⟨i, hi, -, hleast⟩ := capacityFor_spec (h.trans (Nat.pow_le_pow_right (by decide) hk))
  rw [hi]
  exact Nat.pow_le_pow_right (by decide) (hleast k h)

/-- A download is given no more bytes than a machine word holds. -/
theorem downloadLimit_lt (points : ℕ) : Setup.downloadLimit points < 2 ^ 64 := Nat.mod_lt _ (by decide)

theorem le_downloadLimit {points : ℕ} (h : points ≤ 2 ^ 53) : 1152 * points ≤ Setup.downloadLimit points := by
  rw [Setup.downloadLimit, word_of_lt (n := points * 1152) (by omega), word_of_lt (by omega)]
  omega

section Resolve

variable {π : Type} {C : Curve π}

theorem noPanic_downloadSetup {net : Net} {cache : Path} {capacity : ℕ} (h : capacity ≠ 0) :
    (downloadSetup C net cache capacity).NoPanic := by
  rw [downloadSetup, if_neg h]
  exact (Prog.NoPanic.ofExcept _).mapErr.bind fun setup => Disk.noPanic_write.bind fun _ => Prog.NoPanic.pure _

theorem noPanic_resolveSetup {net : Net} {dir : Path} {rows : ℕ} (h : capacityFor rows ≠ 0) :
    (resolveSetup C net dir rows).NoPanic := by
  rw [resolveSetup]
  refine Disk.noPanic_pathExists.bind fun present => ?_
  split
  · refine Prog.NoPanic.bind (Prog.NoPanic.attempt ?_) fun cached => ?_
    · exact Disk.noPanic_readCall.bind fun bytes => Prog.NoPanic.ofExcept _
    · split
      · exact Prog.NoPanic.pure _
      · exact noPanic_downloadSetup h
      · exact Prog.NoPanic.fail _
  · exact noPanic_downloadSetup h

/-- What a setup file that can be read gives. -/
theorem eval_fromFile {path : Path} {points : ℕ} {fs : Fs} {bytes : Bytes} (hnul : path.hasNul = false)
    (h : node fs path = some (.file bytes)) :
    (Setup.fromFile C path points).eval fs = .ofExcept (Setup.fromCompressed C bytes points) := by
  have hread : (Disk.read path : Io SetupError Bytes).eval fs = .ok bytes := Disk.eval_read_ok.mpr ⟨hnul, h⟩
  rw [Setup.fromFile, Prog.Reader.eval_bind Disk.reader_read fun bytes => Prog.Reader.ofOutcome _, hread]
  rfl

theorem eval_fromFile_ok {path : Path} {points : ℕ} {fs : Fs} {s : List π} :
    (Setup.fromFile C path points).eval fs = .ok s ↔ ∃ bytes, path.hasNul = false ∧
      node fs path = some (.file bytes) ∧ Setup.fromCompressed C bytes points = .ok s := by
  constructor
  · intro h
    rw [Setup.fromFile, Prog.Reader.eval_bind_ok Disk.reader_read fun bytes => Prog.Reader.ofOutcome _] at h
    obtain ⟨bytes, hread, hs⟩ := h
    obtain ⟨hnul, hnode⟩ := Disk.eval_read_ok.mp hread
    exact ⟨bytes, hnul, hnode, Outcome.ofExcept_eq_ok.mp hs⟩
  · rintro ⟨bytes, hnul, hnode, hc⟩
    rw [eval_fromFile hnul hnode, hc]
    rfl

/-- **The sizes are right up to `2 ^ 53` rows**, and for no more. -/
theorem sizes_right_iff {point : Bytes → Option π} (hC : C.Lawful point) {rows : ℕ} (hrows : rows < 2 ^ 64) :
    SizesRight C rows ↔ rows ≤ 2 ^ 53 := by
  constructor
  · intro h
    by_contra hbig
    rw [not_le] at hbig
    obtain ⟨k, hk, hle, -⟩ := h.least
    by_cases hwrap : rows ≤ 2 ^ 63
    · -- no machine word is as large as the limit would have to be
      have hlimit := h.limit.trans_lt (downloadLimit_lt _)
      rw [hk] at hlimit
      have hk54 : 2 ^ 54 ≤ 2 ^ k := Nat.pow_le_pow_right (by decide)
        ((Nat.pow_lt_pow_iff_right (by decide)).mp (hbig.trans_le hle))
      omega
    · rw [capacityFor, max_eq_left (by omega), nextPowerOfTwo_wraps (by omega) hrows] at hk
      exact absurd hk.symm (Nat.two_pow_pos k).ne'
  · intro h
    have hcap := capacityFor_le h (by decide)
    obtain ⟨k, hk, hle, hleast⟩ := capacityFor_spec (h.trans (by decide))
    have hword : pointSize * capacityFor rows < 2 ^ 64 := by rw [pointSize]; omega
    refine ⟨⟨k, hk, hle, hleast⟩, fun net dir => noPanic_resolveSetup ?_, ⟨k, hk, ?_⟩, ?_, ?_,
      le_downloadLimit hcap⟩
    · rw [hk]
      exact (Nat.two_pow_pos k).ne'
    · rw [hk, ptauUrlFor, Nat.log2_two_pow]
    · intro path fs s hs
      obtain ⟨bytes, -, -, hc⟩ := eval_fromFile_ok.mp hs
      exact Setup.length_of_fromCompressed hC hword hc
    · intro path fs bytes hnul hnode hlt
      rw [eval_fromFile hnul hnode, Setup.fromCompressed_tooSmall hword hlt]
      rfl

end Resolve

section Sample

open SampleCurve

theorem sizes_right_iff_sample : SizesRight curve 1024 ↔ 1024 ≤ 2 ^ 53 := sizes_right_iff curve_lawful (by decide)

/-- A directory with an empty setup file. -/
def emptyCache : Fs := ((FileTree.empty : Fs).setFile [] cacheName []).getD FileTree.empty

/-- **An empty file passes for a setup of `2 ^ 59` powers.** -/
theorem empty_file_passes_for_a_setup : ¬ SizesRight curve (2 ^ 58 + 1) ∧ capacityFor (2 ^ 58 + 1) = 2 ^ 59 ∧
    (Setup.fromFile curve ((Path.ofLoc []).join cacheName) (2 ^ 59)).eval emptyCache = .ok [] := by
  have hcap : capacityFor (2 ^ 58 + 1) = 2 ^ 59 := by decide +kernel
  have hfile : (Setup.fromFile curve ((Path.ofLoc []).join cacheName) (2 ^ 59)).eval emptyCache = .ok [] := by
    decide +kernel
  refine ⟨fun h => ?_, hcap, hfile⟩
  have hlen := h.exact _ _ [] (by rw [hcap]; exact hfile)
  rw [hcap] at hlen
  simp at hlen

end Sample

end Cli

end SxtEnterprise
