import Mathlib

/-!
# Numbered names: zero-padded decimals in string order

A sequence of names that are decimals padded with zeros to `w` digits, with a common suffix.  Names
are compared character by character, numbers are not, so the two orders have to be related:

* `numbered_injective`: different numbers have different names, at every width;
* `numbered_lt`: below `10 ^ w` the name order is the number order;
* `numbered_zero_le`: number `0` has the least name of all, also past `10 ^ w`, where the padding no
  longer does anything and the name order is no longer the number order.

`sorted` is the sort of a listing by name.  What it returns is determined by which names are listed
(`sorted_eq`), so the order in which a directory happens to be read never matters.
-/

namespace SxtEnterprise.NumberedNames

/-- A name, as a sequence of characters. -/
abbrev Name := List Char

/-- `i` in decimal, padded with zeros to at least `w` digits. -/
def padded (w i : ℕ) : Name := (Nat.toDigits 10 i).leftpad w '0'

/-- The name of number `i`. -/
def numbered (w : ℕ) (suffix : Name) (i : ℕ) : Name := padded w i ++ suffix

theorem ofDigitChars_padded (w i : ℕ) : Nat.ofDigitChars 10 (padded w i) 0 = i := by
  rw [padded, List.leftpad, Nat.ofDigitChars_append, Nat.ofDigitChars_replicate_zero,
    Nat.mul_zero, Nat.ofDigitChars_ten_toDigits]

/-- **Different numbers have different names.** -/
theorem numbered_injective (w : ℕ) (suffix : Name) : Function.Injective (numbered w suffix) := by
  intro i j h
  have hp : padded w i = padded w j := List.append_cancel_right h
  rw [← ofDigitChars_padded w i, hp, ofDigitChars_padded]

/-! ### Digits in string order -/

theorem isDigit_padded {w i : ℕ} {c : Char} (h : c ∈ padded w i) : c.isDigit := by
  rw [padded, List.leftpad, List.mem_append] at h
  rcases h with h | h
  · rw [List.eq_of_mem_replicate h]; decide
  · exact Nat.isDigit_of_mem_toDigits (by decide) (by decide) h

theorem digit_range {c : Char} (h : c.isDigit) : 48 ≤ c.toNat ∧ c.toNat ≤ 57 := by
  rw [Char.isDigit, Bool.and_eq_true, decide_eq_true_eq, decide_eq_true_eq] at h
  exact h

theorem char_lt_iff {c d : Char} : c < d ↔ c.toNat < d.toNat := Iff.rfl

/-- `k` digits stand for less than `10 ^ k`. -/
theorem ofDigitChars_lt (l : Name) (h : ∀ c ∈ l, c.isDigit) :
    Nat.ofDigitChars 10 l 0 < 10 ^ l.length := by
  induction l with
  | nil => simp
  | cons c l ih =>
    have hc := digit_range (h c (by simp))
    have hl := ih fun d hd => h d (by simp [hd])
    have h0 : '0'.toNat = 48 := rfl
    rw [Nat.ofDigitChars_cons, Nat.ofDigitChars_eq_ofDigitChars_zero, List.length_cons, h0]
    calc 10 ^ l.length * (10 * 0 + (c.toNat - 48)) + Nat.ofDigitChars 10 l 0
        < 10 ^ l.length * (10 * 0 + (c.toNat - 48)) + 10 ^ l.length := by omega
      _ = 10 ^ l.length * ((c.toNat - 48) + 1) := by ring
      _ ≤ 10 ^ l.length * 10 := Nat.mul_le_mul_left _ (by omega)
      _ = 10 ^ (l.length + 1) := by rw [pow_succ]

/-- Digit strings of one length are ordered as the numbers they stand for. -/
theorem lt_of_ofDigitChars_lt (a b suffix : Name) (ha : ∀ c ∈ a, c.isDigit)
    (hb : ∀ c ∈ b, c.isDigit) (hl : a.length = b.length)
    (h : Nat.ofDigitChars 10 a 0 < Nat.ofDigitChars 10 b 0) : a ++ suffix < b ++ suffix := by
  induction a generalizing b with
  | nil =>
    rw [List.length_nil] at hl
    rw [List.eq_nil_of_length_eq_zero hl.symm] at h
    simp at h
  | cons c a ih =>
    cases b with
    | nil => simp at hl
    | cons d b =>
      have hl' : a.length = b.length := by simpa using hl
      have hc := digit_range (ha c (by simp))
      have hd := digit_range (hb d (by simp))
      have ha' := ofDigitChars_lt a fun e he => ha e (by simp [he])
      have hb' := ofDigitChars_lt b fun e he => hb e (by simp [he])
      have h0 : '0'.toNat = 48 := rfl
      rw [Nat.ofDigitChars_cons, Nat.ofDigitChars_eq_ofDigitChars_zero, Nat.ofDigitChars_cons,
        Nat.ofDigitChars_eq_ofDigitChars_zero (l := b), ← hl', h0] at h
      rw [← hl'] at hb'
      rw [List.cons_append, List.cons_append, List.cons_lt_cons_iff]
      rcases Nat.lt_trichotomy c.toNat d.toNat with hcd | hcd | hcd
      · exact Or.inl (char_lt_iff.mpr hcd)
      · refine Or.inr ⟨Char.toNat_inj.mp hcd, ih b (fun e he => ha e (by simp [he]))
          (fun e he => hb e (by simp [he])) hl' ?_⟩
        rw [hcd] at h
        omega
      · -- a greater leading digit would outweigh everything below it
        exfalso
        have : 10 ^ a.length * (10 * 0 + (d.toNat - 48)) + 10 ^ a.length
            ≤ 10 ^ a.length * (10 * 0 + (c.toNat - 48)) := by
          calc 10 ^ a.length * (10 * 0 + (d.toNat - 48)) + 10 ^ a.length
              = 10 ^ a.length * ((d.toNat - 48) + 1) := by ring
            _ ≤ 10 ^ a.length * (c.toNat - 48) := Nat.mul_le_mul_left _ (by omega)
            _ = 10 ^ a.length * (10 * 0 + (c.toNat - 48)) := by ring
        omega

theorem length_padded {w i : ℕ} (hw : 0 < w) (hi : i < 10 ^ w) : (padded w i).length = w := by
  have := (Nat.length_toDigits_le_iff (b := 10) (by decide) hw).mpr hi
  rw [padded, List.leftpad, List.length_append, List.length_replicate]
  omega

/-- **Below `10 ^ w` the name order is the number order.** -/
theorem numbered_lt {w i j : ℕ} (suffix : Name) (hw : 0 < w) (hij : i < j) (hj : j < 10 ^ w) :
    numbered w suffix i < numbered w suffix j := by
  refine lt_of_ofDigitChars_lt _ _ suffix (fun _ => isDigit_padded) (fun _ => isDigit_padded) ?_ ?_
  · rw [length_padded hw (by omega), length_padded hw hj]
  · rw [ofDigitChars_padded, ofDigitChars_padded]
    exact hij

/-- A decimal with more than one digit does not start with `0`. -/
theorem toDigits_head {i : ℕ} (hi : 10 ≤ i) :
    ∃ c l, Nat.toDigits 10 i = c :: l ∧ '0' < c := by
  obtain ⟨c, l, hcl⟩ := List.exists_cons_of_ne_nil (Nat.toDigits_ne_nil (n := i) (b := 10))
  refine ⟨c, l, hcl, ?_⟩
  have hdigits : ∀ d ∈ c :: l, d.isDigit := fun d hd =>
    Nat.isDigit_of_mem_toDigits (b := 10) (n := i) (by decide) (by decide) (by rw [hcl]; exact hd)
  have hval : Nat.ofDigitChars 10 (c :: l) 0 = i := by rw [← hcl, Nat.ofDigitChars_ten_toDigits]
  have hc := digit_range (hdigits c (by simp))
  have h0 : '0'.toNat = 48 := rfl
  rw [char_lt_iff, h0]
  by_contra hle
  have hczero : c.toNat - 48 = 0 := by omega
  have hlt := ofDigitChars_lt l fun d hd => hdigits d (by simp [hd])
  rw [Nat.ofDigitChars_cons, h0, hczero] at hval
  simp only [Nat.mul_zero, Nat.add_zero] at hval
  rw [hval] at hlt
  have hlpos : 0 < l.length := by
    rcases Nat.eq_zero_or_pos l.length with h | h
    · rw [h] at hlt; simp at hlt; omega
    · exact h
  have hlen := (Nat.length_toDigits_le_iff (b := 10) (by decide) hlpos).mpr hlt
  rw [hcl] at hlen
  simp at hlen

/-- **Number `0` has the least name of all**, however large the others are. -/
theorem numbered_zero_le {w : ℕ} (suffix : Name) (hw : 0 < w) (j : ℕ) :
    numbered w suffix 0 ≤ numbered w suffix j := by
  rcases Nat.eq_zero_or_pos j with rfl | hpos
  · exact le_refl _
  rcases Nat.lt_or_ge j (10 ^ w) with hj | hj
  · exact le_of_lt (numbered_lt suffix hw hpos hj)
  · have hten : 10 ≤ j := le_trans (by simpa using Nat.pow_le_pow_right (by decide : 0 < 10) hw) hj
    obtain ⟨c, l, hcl, hc⟩ := toDigits_head hten
    have hlen : w ≤ (Nat.toDigits 10 j).length := by
      by_contra hlt
      have := (Nat.length_toDigits_le_iff (b := 10) (n := j) (by decide) hw).mp (by omega)
      omega
    have hj' : numbered w suffix j = c :: (l ++ suffix) := by
      rw [numbered, padded, List.leftpad, show w - (Nat.toDigits 10 j).length = 0 by omega, hcl]
      rfl
    obtain ⟨w', rfl⟩ : ∃ w', w = w' + 1 := ⟨w - 1, by omega⟩
    have h0' : ∃ l', numbered (w' + 1) suffix 0 = '0' :: l' := by
      rw [numbered, padded, Nat.toDigits_zero, List.leftpad]
      cases w' with
      | zero => exact ⟨suffix, rfl⟩
      | succ v => exact ⟨_, rfl⟩
    obtain ⟨l', hl'⟩ := h0'
    rw [hj', hl']
    exact le_of_lt (List.cons_lt_cons_iff.mpr (Or.inl hc))

/-! ### Sorting a listing -/

/-- The names in string order. -/
def sorted (l : List Name) : List Name := l.insertionSort (· ≤ ·)

@[simp] theorem mem_sorted {l : List Name} {x : Name} : x ∈ sorted l ↔ x ∈ l :=
  List.mem_insertionSort _

theorem length_sorted (l : List Name) : (sorted l).length = l.length :=
  List.length_insertionSort _ _

theorem nodup_sorted {l : List Name} (h : l.Nodup) : (sorted l).Nodup :=
  (List.perm_insertionSort _ l).nodup_iff.mpr h

theorem sorted_pairwise (l : List Name) : (sorted l).Pairwise (· ≤ ·) :=
  List.pairwise_insertionSort _ _

/-- A sorted listing is determined by what is listed. -/
theorem sorted_eq {l l' : List Name} (h : l.Nodup) (hs : l'.Pairwise (· < ·))
    (hm : ∀ x, x ∈ l ↔ x ∈ l') : sorted l = l' := by
  refine List.Pairwise.eq_of_mem_iff (r := (· < ·)) ?_ hs fun x => by rw [mem_sorted, hm]
  have hboth := (sorted_pairwise l).and (nodup_sorted h)
  exact hboth.imp fun ⟨hle, hne⟩ => lt_of_le_of_ne hle hne

/-- The first of a sorted listing is its least name. -/
theorem sorted_head {l : List Name} {m : Name} (hm : m ∈ l) (hle : ∀ x ∈ l, m ≤ x) :
    (sorted l).head? = some m := by
  have hmem : m ∈ sorted l := mem_sorted.mpr hm
  rcases hs : sorted l with _ | ⟨x, xs⟩
  · rw [hs] at hmem; simp at hmem
  · have hx : x ∈ l := mem_sorted.mp (by rw [hs]; simp)
    have hpw := sorted_pairwise l
    rw [hs] at hmem hpw
    rcases List.mem_cons.mp hmem with rfl | hmem
    · rfl
    · rw [List.head?_cons, le_antisymm ((List.pairwise_cons.mp hpw).1 m hmem) (hle x hx)]

/-- One name more goes somewhere between the others, which stay in order. -/
theorem sorted_insert {l l' : List Name} {x : Name} (hl : l.Pairwise (· ≤ ·)) (hl' : l'.Pairwise (· ≤ ·))
    (hperm : l'.Perm (x :: l)) : ∃ l₁ l₂, l = l₁ ++ l₂ ∧ l' = l₁ ++ x :: l₂ := by
  obtain ⟨l₁, l₂, rfl⟩ := List.append_of_mem (hperm.mem_iff.mpr (List.mem_cons_self ..))
  refine ⟨l₁, l₂, ?_, rfl⟩
  have hrest : (l₁ ++ l₂).Perm l := (List.perm_cons x).mp (List.perm_middle.symm.trans hperm)
  exact hrest.symm.eq_of_pairwise (fun a b _ _ (hab : a ≤ b) (hba : b ≤ a) => le_antisymm hab hba) hl
    (hl'.sublist (List.Sublist.append_left (List.sublist_cons_self _ _) _))

/-- The names of the numbers up to `n`, in number order: this is a sorted listing up to `10 ^ w`. -/
theorem numbered_pairwise {w n : ℕ} (suffix : Name) (hw : 0 < w) (hn : n ≤ 10 ^ w) :
    ((List.range n).map (numbered w suffix)).Pairwise (· < ·) := by
  rw [List.pairwise_map]
  refine (List.pairwise_lt_range (n := n)).imp_of_mem ?_
  intro i j _ hj hij
  exact numbered_lt suffix hw hij (lt_of_lt_of_le (List.mem_range.mp hj) hn)

/-! ### The order in which numbered names are read -/

/-- The numbers below `n`, in the string order of their names. -/
def nameOrder (w : ℕ) (suffix : Name) (n : ℕ) : List ℕ :=
  (List.range n).insertionSort fun i j => numbered w suffix i ≤ numbered w suffix j

theorem nameOrder_perm (w : ℕ) (suffix : Name) (n : ℕ) :
    (nameOrder w suffix n).Perm (List.range n) := List.perm_insertionSort _ _

theorem sorted_numbered (w : ℕ) (suffix : Name) (n : ℕ) :
    sorted ((List.range n).map (numbered w suffix)) = (nameOrder w suffix n).map (numbered w suffix) := by
  rw [sorted, nameOrder, List.map_insertionSort (fun i j => numbered w suffix i ≤ numbered w suffix j)
    (· ≤ ·) (numbered w suffix) _ fun _ _ _ _ => Iff.rfl]

/-- **Up to `10 ^ w` names, they are read in number order.** -/
theorem nameOrder_eq_range {w n : ℕ} (suffix : Name) (hw : 0 < w) (hn : n ≤ 10 ^ w) :
    nameOrder w suffix n = List.range n := by
  have hsorted : sorted ((List.range n).map (numbered w suffix)) = (List.range n).map (numbered w suffix) :=
    sorted_eq (List.nodup_range.map (numbered_injective w suffix)) (numbered_pairwise suffix hw hn)
      fun _ => Iff.rfl
  rw [sorted_numbered] at hsorted
  exact List.map_injective_iff.mpr (numbered_injective w suffix) hsorted

/-- **One number more** goes somewhere between the others: to the end, up to `10 ^ w` of them. -/
theorem nameOrder_succ {w : ℕ} (suffix : Name) (hw : 0 < w) (n : ℕ) : ∃ is js, nameOrder w suffix n = is ++ js ∧
    nameOrder w suffix (n + 1) = is ++ n :: js ∧ (n < 10 ^ w → js = []) := by
  by_cases hn : n < 10 ^ w
  · refine ⟨List.range n, [], ?_, ?_, fun _ => rfl⟩
    · rw [nameOrder_eq_range suffix hw hn.le, List.append_nil]
    · rw [nameOrder_eq_range suffix hw hn, List.range_succ]
  · have hsorted : ∀ k, ((nameOrder w suffix k).map (numbered w suffix)).Pairwise (· ≤ ·) := fun k => by
      rw [← sorted_numbered]
      exact sorted_pairwise _
    have hperm : ((nameOrder w suffix (n + 1)).map (numbered w suffix)).Perm
        (numbered w suffix n :: (nameOrder w suffix n).map (numbered w suffix)) := by
      rw [← List.map_cons]
      refine List.Perm.map _ ((nameOrder_perm _ _ _).trans ?_)
      rw [List.range_succ]
      exact (List.perm_append_singleton n _).trans ((nameOrder_perm w suffix n).symm.cons n)
    obtain ⟨l₁, l₂, h, h'⟩ := sorted_insert (hsorted n) (hsorted (n + 1)) hperm
    obtain ⟨is, js, heq, rfl, rfl⟩ := List.map_eq_append_iff.mp h
    refine ⟨is, js, heq, ?_, fun hlt => absurd hlt hn⟩
    rw [← List.map_cons, ← List.map_append] at h'
    exact List.map_injective_iff.mpr (numbered_injective w suffix) h'

theorem toDigits_pow (k : ℕ) : ∃ l, Nat.toDigits 10 (10 ^ k) = '1' :: l ∧ l.length = k := by
  induction k with
  | zero => exact ⟨[], rfl, rfl⟩
  | succ k ih =>
    obtain ⟨l, hl, hlen⟩ := ih
    have happ := Nat.toDigits_append_toDigits (b := 10) (n := 10 ^ k) (d := 0) (by decide)
      (by positivity) (by decide)
    refine ⟨l ++ ['0'], ?_, by simp [hlen]⟩
    rw [pow_succ', ← Nat.add_zero (10 * 10 ^ k), ← happ, hl]
    rfl

theorem toDigits_pow_sub_one {k : ℕ} (hk : 0 < k) :
    ∃ l, Nat.toDigits 10 (10 ^ k - 1) = '9' :: l ∧ l.length + 1 = k := by
  induction k, hk using Nat.le_induction with
  | base => exact ⟨[], rfl, rfl⟩
  | succ k hk ih =>
    obtain ⟨l, hl, hlen⟩ := ih
    have hpow : 1 < 10 ^ k := Nat.one_lt_pow (by omega) (by decide)
    have happ := Nat.toDigits_append_toDigits (b := 10) (n := 10 ^ k - 1) (d := 9) (by decide)
      (by omega) (by decide)
    refine ⟨l ++ ['9'], ?_, by simp; omega⟩
    rw [show 10 ^ (k + 1) - 1 = 10 * (10 ^ k - 1) + 9 by rw [pow_succ]; omega, ← happ, hl]
    rfl

/-- **Where the padding ends.**  `10 ^ w` is written with one digit more, and its name sorts before that
of `10 ^ w - 1`. -/
theorem numbered_pow_lt {w : ℕ} (suffix : Name) (hw : 0 < w) :
    numbered w suffix (10 ^ w) < numbered w suffix (10 ^ w - 1) := by
  obtain ⟨l, hl, hlen⟩ := toDigits_pow_sub_one hw
  obtain ⟨l', hl', hlen'⟩ := toDigits_pow w
  have hnines : numbered w suffix (10 ^ w - 1) = '9' :: (l ++ suffix) := by
    rw [numbered, padded, hl, List.leftpad, List.length_cons, show w - (l.length + 1) = 0 by omega]
    rfl
  have hone : numbered w suffix (10 ^ w) = '1' :: (l' ++ suffix) := by
    rw [numbered, padded, hl', List.leftpad, List.length_cons, show w - (l'.length + 1) = 0 by omega]
    rfl
  rw [hnines, hone]
  exact List.cons_lt_cons_iff.mpr (Or.inl (by decide : '1' < '9'))

theorem nameOrder_pairwise (w : ℕ) (suffix : Name) (n : ℕ) :
    (nameOrder w suffix n).Pairwise fun i j => numbered w suffix i ≤ numbered w suffix j :=
  List.pairwise_insertionSort _ _

/-- Past `10 ^ w` names the order is no longer the number order. -/
theorem nameOrder_ne_range {w n : ℕ} (suffix : Name) (hw : 0 < w) (hn : 10 ^ w < n) :
    nameOrder w suffix n ≠ List.range n := by
  intro h
  have hpw := nameOrder_pairwise w suffix n
  rw [h, List.pairwise_iff_getElem] at hpw
  have hten : 1 < 10 ^ w := Nat.one_lt_pow (by omega) (by decide)
  have hle := hpw (10 ^ w - 1) (10 ^ w) (by simp; omega) (by simp; omega) (by omega)
  rw [List.getElem_range, List.getElem_range] at hle
  exact absurd hle (not_le.mpr (numbered_pow_lt suffix hw))

/-- Whatever comes last has the greatest name. -/
theorem nameOrder_last {w n i j : ℕ} {suffix : Name} {init : List ℕ}
    (h : nameOrder w suffix n = init ++ [j]) (hi : i < n) : numbered w suffix i ≤ numbered w suffix j := by
  have hmem : i ∈ init ++ [j] := by
    rw [← h, (nameOrder_perm _ _ _).mem_iff, List.mem_range]
    exact hi
  have hpw := nameOrder_pairwise w suffix n
  rw [h, List.pairwise_append] at hpw
  rcases List.mem_append.mp hmem with hmem | hmem
  · exact hpw.2.2 i hmem j (by simp)
  · rw [List.mem_singleton.mp hmem]

end SxtEnterprise.NumberedNames
