import SxtEnterprise.Setup
import SxtEnterprise.Traverse

/-!
# The flat setup format

A setup file is a sequence of blocks of one size, one compressed point each.  `Curve.Lawful` is what loading
relies on: a point compresses to a block and back, and a flat slice is decoded block by block.  It follows
that the first `k` powers of a file are read off its first `k` blocks, whatever comes after them
(`fromCompressed_eq_ok`), and that reading fewer of them gives a prefix.
-/

namespace SxtEnterprise

open NumberedNames FaultyRun

/-- The first `k` blocks of `n` elements each. -/
def blocks {α : Type} (n k : ℕ) (l : List α) : List (List α) := (List.range k).map fun i => (l.drop (n * i)).take n

section Blocks

variable {α β : Type} {n j k : ℕ} {l : List α}

theorem blocks_succ : blocks n (k + 1) l = l.take n :: blocks n k (l.drop n) := by
  rw [blocks, List.range_succ_eq_map, List.map_cons, List.map_map, Nat.mul_zero, List.drop_zero, blocks]
  refine congrArg _ (List.map_congr_left fun i _ => ?_)
  rw [Function.comp_apply, List.drop_drop, Nat.mul_succ, Nat.add_comm]

theorem take_blocks (h : j ≤ k) : (blocks n k l).take j = blocks n j l := by
  rw [blocks, ← List.map_take, List.take_range, min_eq_left h, blocks]

/-- What lies behind the blocks does not matter. -/
theorem blocks_take (h : n * k ≤ j) : blocks n k (l.take j) = blocks n k l := by
  refine List.map_congr_left fun i hi => ?_
  have hle : n * i + n ≤ j := by
    have := Nat.mul_le_mul_left n (Nat.succ_le_of_lt (List.mem_range.mp hi))
    rw [Nat.mul_succ] at this
    omega
  rw [List.drop_take, List.take_take, min_eq_left (by omega)]

/-- Blocks written one after the other are read back. -/
theorem blocks_flatMap {f : β → List α} (hf : ∀ b, (f b).length = n) (bs : List β) (hk : k ≤ bs.length) :
    blocks n k (bs.flatMap f) = (bs.take k).map f := by
  induction k generalizing bs with
  | zero => simp [blocks]
  | succ k ih =>
    cases bs with
    | nil => simp at hk
    | cons b bs =>
      rw [blocks_succ, List.flatMap_cons, List.take_succ_cons, List.map_cons]
      rw [List.take_append_of_le_length (hf b).ge, List.take_of_length_le (hf b).le,
        List.drop_append_of_le_length (hf b).ge, List.drop_of_length_le (hf b).le, List.nil_append,
        ih bs (by simpa using hk)]

theorem length_flatMap_of_const {f : β → List α} (hf : ∀ b, (f b).length = n) (bs : List β) :
    (bs.flatMap f).length = n * bs.length := by
  induction bs with
  | nil => simp
  | cons b bs ih => rw [List.flatMap_cons, List.length_append, hf, ih, List.length_cons, Nat.mul_succ, Nat.add_comm]

end Blocks

/-- What loading relies on; `point` decodes one compressed point. -/
structure Curve.Lawful {π : Type} (C : Curve π) (point : Bytes → Option π) : Prop where
  compress_length : ∀ p, (C.compress p).length = Setup.pointSize
  point_compress : ∀ p, point (C.compress p) = some p
  decompress_eq : ∀ bytes k, bytes.length = Setup.pointSize * k →
    C.decompress bytes = (blocks Setup.pointSize k bytes).mapM point

namespace Setup

variable {π : Type} {C : Curve π} {point : Bytes → Option π} {bytes : Bytes} {k : ℕ} {s : List π}

theorem word_of_lt {n : ℕ} (h : n < 2 ^ 64) : word n = n := Nat.mod_eq_of_lt h

/-- **What is read is what the first blocks hold.** -/
theorem fromCompressed_eq_ok (hC : C.Lawful point) (hk : pointSize * k < 2 ^ 64) :
    fromCompressed C bytes k = .ok s ↔
      pointSize * k ≤ bytes.length ∧ (blocks pointSize k bytes).mapM point = some s := by
  rw [fromCompressed]
  simp only [Nat.mul_comm k, word_of_lt hk]
  split
  · rename_i hle
    rw [hC.decompress_eq _ k (by rw [List.length_take, min_eq_left hle]), blocks_take le_rfl]
    rcases (blocks pointSize k bytes).mapM point with _ | s' <;> simp [hle]
  · rename_i hle
    simp [hle]

/-- A file too short is reported as such. -/
theorem fromCompressed_tooSmall (hk : pointSize * k < 2 ^ 64) (h : bytes.length < pointSize * k) :
    fromCompressed C bytes k = .error (.tooSmall (bytes.length / pointSize) k) := by
  rw [fromCompressed]
  simp only [Nat.mul_comm k, word_of_lt hk]
  rw [if_neg (by omega)]

theorem length_of_fromCompressed (hC : C.Lawful point) (hk : pointSize * k < 2 ^ 64)
    (h : fromCompressed C bytes k = .ok s) : s.length = k := by
  have hall := mapM_eq_some_iff.mp ((fromCompressed_eq_ok hC hk).mp h).2
  rw [← hall.length_eq]
  simp [blocks]

theorem length_toCompressed (hC : C.Lawful point) (s : List π) :
    (toCompressed C s).length = pointSize * s.length := length_flatMap_of_const hC.compress_length s

/-- Points compressed one after the other are read back, however many follow. -/
theorem mapM_blocks_toCompressed (hC : C.Lawful point) (h : k ≤ s.length) :
    (blocks pointSize k (toCompressed C s)).mapM point = some (s.take k) := by
  rw [toCompressed, blocks_flatMap hC.compress_length s h, mapM_eq_some_iff, List.forall₂_map_left_iff,
    List.forall₂_same]
  exact fun p _ => hC.point_compress p

/-- **The flat setup format has the prefix property**: what was compressed is read back up to any point, and
of whatever bytes the first `k` powers are those of its first `k` blocks, reading fewer giving a prefix. -/
theorem flat_format_prefix (hC : C.Lawful point) (hk : pointSize * k < 2 ^ 64) :
    (∀ s : List π, fromCompressed C (toCompressed C s) k
      = if k ≤ s.length then .ok (s.take k) else .error (.tooSmall s.length k)) ∧
    ∀ bytes, ((∃ s, fromCompressed C bytes k = .ok s) ↔
        pointSize * k ≤ bytes.length ∧ ∀ block ∈ blocks pointSize k bytes, ∃ p, point block = some p) ∧
      ∀ s, fromCompressed C bytes k = .ok s →
        s.length = k ∧ ∀ j ≤ k, ∃ s', fromCompressed C bytes j = .ok s' ∧ s' <+: s := by
  refine ⟨fun s => ?_, fun bytes => ⟨?_, fun s hs => ⟨length_of_fromCompressed hC hk hs, fun j hj => ?_⟩⟩⟩
  · split
    · rename_i hle
      refine (fromCompressed_eq_ok hC hk).mpr ⟨?_, mapM_blocks_toCompressed hC hle⟩
      rw [length_toCompressed hC]
      exact Nat.mul_le_mul_left _ hle
    · rename_i hle
      have hlen := length_toCompressed hC s
      rw [fromCompressed_tooSmall hk, hlen, Nat.mul_div_cancel_left _ (by decide)]
      rw [hlen]
      exact Nat.mul_lt_mul_of_pos_left (not_le.mp hle) (by decide)
  · simp only [fromCompressed_eq_ok hC hk, exists_and_left, exists_mapM_iff]
  · obtain ⟨hlen, hall⟩ := (fromCompressed_eq_ok hC hk).mp hs
    have hjk := Nat.mul_le_mul_left pointSize hj
    refine ⟨s.take j, (fromCompressed_eq_ok hC (by omega)).mpr ⟨by omega, ?_⟩, List.take_prefix j s⟩
    rw [← take_blocks hj]
    exact mapM_take hall j

end Setup

/-! ### A curve that keeps every law -/

namespace SampleCurve

/-- A byte is a point, padded to a block with zeros; ceremony files are its first points. -/
def point (block : Bytes) : Option UInt8 :=
  match block with
  | [] => none
  | p :: rest => if rest = List.replicate 31 0 then some p else none

def curve : Curve UInt8 where
  compress p := p :: List.replicate 31 0
  decompress bytes := (blocks Setup.pointSize (bytes.length / Setup.pointSize) bytes).mapM point
  readPtau bytes k := if k ≤ bytes.length then .ok (bytes.take k) else .error "too few powers".toList

theorem curve_lawful : curve.Lawful point where
  compress_length p := by
    show (p :: List.replicate 31 (0 : UInt8)).length = 32
    rw [List.length_cons, List.length_replicate]
  point_compress p := by
    show (if List.replicate 31 (0 : UInt8) = List.replicate 31 0 then some p else none) = some p
    rw [if_pos rfl]
  decompress_eq bytes k h := by
    show (blocks _ (bytes.length / _) bytes).mapM point = _
    rw [h, Nat.mul_div_cancel_left _ (by decide)]

end SampleCurve

namespace Setup

open SampleCurve

theorem flat_format_prefix_sample :
    (∀ s : List UInt8, fromCompressed curve (toCompressed curve s) 2
      = if 2 ≤ s.length then .ok (s.take 2) else .error (.tooSmall s.length 2)) ∧
    ∀ bytes, ((∃ s, fromCompressed curve bytes 2 = .ok s) ↔
        pointSize * 2 ≤ bytes.length ∧ ∀ block ∈ blocks pointSize 2 bytes, ∃ p, point block = some p) ∧
      ∀ s, fromCompressed curve bytes 2 = .ok s →
        s.length = 2 ∧ ∀ j ≤ 2, ∃ s', fromCompressed curve bytes j = .ok s' ∧ s' <+: s :=
  flat_format_prefix curve_lawful (by decide)

end Setup

end SxtEnterprise
