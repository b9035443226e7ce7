import Mathlib

/-!
# File trees: directories and files under one root

A `FileTree ν β` is a finite tree of directories and files, with names in `ν` and file contents in
`β`, held as a map from locations (the list of names from the root) to nodes.  The two facts every
argument about paths needs are fields of the structure, so no other tree can be built:

* the root is a directory;
* whatever is not missing lies in a directory.

`put` is the one way to change a tree; `mkdir`, `mkdirs` and `setFile` are built from it, and each
comes with the lemma that says which locations it changes and which it leaves alone.
-/

namespace SxtEnterprise

/-- What lies at a location. -/
inductive Node (β : Type) where
  | dir : Node β
  | file (content : β) : Node β
  deriving DecidableEq

/-- A location: the names from the root down. -/
abbrev Loc (ν : Type) := List ν

/-- A finite tree of directories and files. -/
structure FileTree (ν β : Type) [DecidableEq ν] where
  /-- What lies where. -/
  nodes : AList fun _ : Loc ν => Node β
  /-- The root is a directory. -/
  rooted : nodes.lookup [] = some .dir
  /-- Whatever is not missing lies in a directory. -/
  parented : ∀ (p : Loc ν) (c : ν), nodes.lookup (p ++ [c]) ≠ none → nodes.lookup p = some .dir

namespace FileTree

variable {ν β : Type} [DecidableEq ν]

/-- What lies at `p`, if anything does. -/
def lookup (t : FileTree ν β) (p : Loc ν) : Option (Node β) := t.nodes.lookup p

/-- The tree with nothing but its root. -/
def empty : FileTree ν β where
  nodes := AList.singleton [] .dir
  rooted := by rw [← AList.insert_empty]; exact AList.lookup_insert _
  parented := by
    intro p c h
    rw [← AList.insert_empty, AList.lookup_insert_ne (by simp)] at h
    exact absurd (AList.lookup_empty _) h

theorem lookup_empty {p : Loc ν} (h : p ≠ []) : (empty : FileTree ν β).lookup p = none := by
  show (AList.singleton (β := fun _ : Loc ν => Node β) [] .dir).lookup p = none
  rw [← AList.insert_empty, AList.lookup_insert_ne h]
  exact AList.lookup_empty _

theorem lookup_root (t : FileTree ν β) : t.lookup [] = some .dir := t.rooted

theorem lookup_parent (t : FileTree ν β) {p : Loc ν} {c : ν} (h : t.lookup (p ++ [c]) ≠ none) :
    t.lookup p = some .dir := t.parented p c h

/-- Everything above something that is there is a directory. -/
theorem lookup_above (t : FileTree ν β) {p : Loc ν} (q : Loc ν) (hq : q ≠ [])
    (h : t.lookup (p ++ q) ≠ none) : t.lookup p = some .dir := by
  induction q using List.reverseRecOn with
  | nil => exact absurd rfl hq
  | append_singleton q c ih =>
    rw [← List.append_assoc] at h
    have hpq := t.lookup_parent h
    rcases eq_or_ne q [] with rfl | hne
    · simpa using hpq
    · exact ih hne (by rw [hpq]; simp)

/-- A file on the way from `p` down along `cs`. -/
def blocked (t : FileTree ν β) (p : Loc ν) (cs : List ν) : Bool :=
  cs.inits.any fun q => match t.lookup (p ++ q) with
    | some (.file _) => true
    | _ => false

theorem blocked_iff {t : FileTree ν β} {p : Loc ν} {cs : List ν} :
    t.blocked p cs = true ↔ ∃ q b, q <+: cs ∧ t.lookup (p ++ q) = some (.file b) := by
  rw [blocked, List.any_eq_true]
  constructor
  · rintro ⟨q, hq, h⟩
    split at h
    · rename_i b hb
      exact ⟨q, b, (List.mem_inits q cs).mp hq, hb⟩
    · simp at h
  · rintro ⟨q, b, hq, h⟩
    exact ⟨q, (List.mem_inits q cs).mpr hq, by rw [h]⟩

/-! ### Listing a directory -/

/-- The name `q` has in `p`, if it lies directly in it. -/
def childOf (p q : Loc ν) : Option ν := if q.dropLast = p then q.getLast? else none

theorem childOf_eq_some {p q : Loc ν} {c : ν} : childOf p q = some c ↔ q = p ++ [c] := by
  constructor
  · intro h
    rw [childOf] at h
    split at h
    · rename_i hd
      rw [← hd]
      exact (List.dropLast_append_getLast? c h).symm
    · simp at h
  · rintro rfl
    simp [childOf]

/-- The names in the directory `p`, in no particular order. -/
def children (t : FileTree ν β) (p : Loc ν) : List ν := t.nodes.keys.filterMap (childOf p)

theorem mem_children {t : FileTree ν β} {p : Loc ν} {c : ν} :
    c ∈ t.children p ↔ t.lookup (p ++ [c]) ≠ none := by
  simp only [children, List.mem_filterMap, childOf_eq_some, exists_eq_right]
  rw [← AList.mem_keys, ← AList.lookup_isSome, Option.isSome_iff_ne_none]
  rfl

theorem nodup_children (t : FileTree ν β) (p : Loc ν) : (t.children p).Nodup := by
  apply List.Nodup.filterMap _ t.nodes.keys_nodup
  intro a b c ha hb
  rw [Option.mem_def, childOf_eq_some] at ha hb
  rw [ha, hb]

/-! ### Changing a tree -/

variable [DecidableEq β]

/-- Puts `n` at `p/c`, where `p` is a directory; a directory is never replaced by a file. -/
def put (t : FileTree ν β) (p : Loc ν) (c : ν) (n : Node β) (hp : t.lookup p = some .dir)
    (hc : t.lookup (p ++ [c]) = some .dir → n = .dir) : FileTree ν β where
  nodes := t.nodes.insert (p ++ [c]) n
  rooted := by rw [AList.lookup_insert_ne (by simp)]; exact t.rooted
  parented := by
    intro q d h
    have hqp : q = p ++ [c] → t.nodes.lookup q ≠ none → n = .dir ∨ t.nodes.lookup q ≠ some .dir := by
      rintro rfl _
      by_cases hd : t.lookup (p ++ [c]) = some .dir
      · exact Or.inl (hc hd)
      · exact Or.inr hd
    by_cases hqd : q ++ [d] = p ++ [c]
    · obtain ⟨rfl, -⟩ := List.append_inj' hqd rfl
      rw [AList.lookup_insert_ne (by simp)]
      exact hp
    · rw [AList.lookup_insert_ne hqd] at h
      have hq := t.parented q d h
      by_cases hqc : q = p ++ [c]
      · rcases hqp hqc (by rw [hq]; simp) with hn | hn
        · rw [hqc, AList.lookup_insert, hn]
        · exact absurd hq hn
      · rw [AList.lookup_insert_ne hqc]
        exact hq

theorem lookup_put (t : FileTree ν β) {p : Loc ν} {c : ν} {n : Node β} (hp) (hc) (q : Loc ν) :
    (t.put p c n hp hc).lookup q = if q = p ++ [c] then some n else t.lookup q := by
  by_cases hq : q = p ++ [c]
  · subst hq
    rw [if_pos rfl]
    exact AList.lookup_insert _
  · rw [if_neg hq]
    exact AList.lookup_insert_ne hq

/-- Makes the directory `p/c`, if `p` is a directory and nothing is there yet. -/
def mkdir (t : FileTree ν β) (p : Loc ν) (c : ν) : FileTree ν β :=
  if h : t.lookup p = some .dir ∧ t.lookup (p ++ [c]) = none then
    t.put p c .dir h.1 (fun _ => rfl)
  else t

theorem lookup_mkdir (t : FileTree ν β) {p : Loc ν} {c : ν} (hp : t.lookup p = some .dir)
    (hc : t.lookup (p ++ [c]) = none) (q : Loc ν) :
    (t.mkdir p c).lookup q = if q = p ++ [c] then some .dir else t.lookup q := by
  rw [mkdir, dif_pos ⟨hp, hc⟩, lookup_put]

/-- Gives the file `p/c` the content `b`, if `p` is a directory and `p/c` is not one. -/
def setFile (t : FileTree ν β) (p : Loc ν) (c : ν) (b : β) : Option (FileTree ν β) :=
  if h : t.lookup p = some .dir ∧ t.lookup (p ++ [c]) ≠ some .dir then
    some (t.put p c (.file b) h.1 (fun hd => absurd hd h.2))
  else none

theorem setFile_isSome {t : FileTree ν β} {p : Loc ν} {c : ν} {b : β}
    (hp : t.lookup p = some .dir) (hc : t.lookup (p ++ [c]) ≠ some .dir) :
    ∃ t', t.setFile p c b = some t' := by
  rw [setFile, dif_pos ⟨hp, hc⟩]
  exact ⟨_, rfl⟩

omit [DecidableEq β] in
/-- `t'` is `t` with the file `p/c` holding `b`. -/
structure Sets (t : FileTree ν β) (p : Loc ν) (c : ν) (b : β) (t' : FileTree ν β) : Prop where
  isDir : t.lookup p = some .dir
  notDir : t.lookup (p ++ [c]) ≠ some .dir
  lookup : ∀ q, t'.lookup q = if q = p ++ [c] then some (.file b) else t.lookup q

theorem setFile_spec {t t' : FileTree ν β} {p : Loc ν} {c : ν} {b : β}
    (h : t.setFile p c b = some t') : t.Sets p c b t' := by
  rw [setFile] at h
  split at h
  · rename_i hd
    obtain rfl := Option.some.inj h
    exact ⟨hd.1, hd.2, fun q => lookup_put t _ _ q⟩
  · simp at h

namespace Sets

variable {t t' t'' : FileTree ν β} {p : Loc ν} {c : ν} {b b' : β}

omit [DecidableEq β] in
theorem self (h : t.Sets p c b t') : t'.lookup (p ++ [c]) = some (.file b) := by
  rw [h.lookup, if_pos rfl]

omit [DecidableEq β] in
theorem ne (h : t.Sets p c b t') {q : Loc ν} (hq : q ≠ p ++ [c]) : t'.lookup q = t.lookup q := by
  rw [h.lookup, if_neg hq]

omit [DecidableEq β] in
theorem isDir_iff (h : t.Sets p c b t') (q : Loc ν) :
    t'.lookup q = some .dir ↔ t.lookup q = some .dir := by
  rw [h.lookup]
  split
  · rename_i hq
    simp [hq, h.notDir]
  · exact Iff.rfl

omit [DecidableEq β] in
/-- Only the last of two contents stays. -/
theorem again (h : t.Sets p c b t') (h' : t'.Sets p c b' t'') : t.Sets p c b' t'' where
  isDir := h.isDir
  notDir := h.notDir
  lookup q := by
    rw [h'.lookup]
    split
    · rfl
    · rename_i hq
      exact h.ne hq

end Sets

omit [DecidableEq β] in
/-- The file `p/c` may have been written, and nothing else is different. -/
def OnlySets (p : Loc ν) (c : ν) (t t' : FileTree ν β) : Prop := t' = t ∨ ∃ b, t.Sets p c b t'

namespace OnlySets

variable {t t' : FileTree ν β} {p : Loc ν} {c : ν}

omit [DecidableEq β] in
theorem refl (t : FileTree ν β) : OnlySets p c t t := Or.inl rfl

omit [DecidableEq β] in
theorem ne (h : OnlySets p c t t') {q : Loc ν} (hq : q ≠ p ++ [c]) : t'.lookup q = t.lookup q := by
  rcases h with rfl | ⟨b, hset⟩
  · rfl
  · exact hset.ne hq

omit [DecidableEq β] in
theorem isDir_iff (h : OnlySets p c t t') (q : Loc ν) : t'.lookup q = some .dir ↔ t.lookup q = some .dir := by
  rcases h with rfl | ⟨b, hset⟩
  · rfl
  · exact hset.isDir_iff q

end OnlySets

/-- Makes the missing directories on the way from `p` down along `cs`, at most `n` of them. -/
def mkdirs (t : FileTree ν β) (p : Loc ν) : List ν → ℕ → FileTree ν β
  | [], _ => t
  | c :: cs, n =>
    if t.lookup (p ++ [c]) ≠ none then t.mkdirs (p ++ [c]) cs n
    else if n = 0 then t
    else (t.mkdir p c).mkdirs (p ++ [c]) cs (n - 1)

/-- **Frame of `mkdirs`.**  A location either keeps what it held, or was missing and on the way, and
is now a directory. -/
theorem lookup_mkdirs (t : FileTree ν β) (p : Loc ν) (cs : List ν) (n : ℕ) (q : Loc ν) :
    (t.mkdirs p cs n).lookup q = t.lookup q ∨
      (t.lookup q = none ∧ (t.mkdirs p cs n).lookup q = some .dir ∧
        ∃ k, 0 < k ∧ q = p ++ cs.take k) := by
  induction cs generalizing t p n with
  | nil => exact Or.inl rfl
  | cons c cs ih =>
    have hdown : ∀ t' : FileTree ν β, (∃ k, 0 < k ∧ q = p ++ [c] ++ cs.take k) →
        ∃ k, 0 < k ∧ q = p ++ (c :: cs).take k := by
      rintro - ⟨k, -, rfl⟩
      exact ⟨k + 1, by omega, by simp⟩
    rw [mkdirs]
    split
    · rcases ih t (p ++ [c]) n with hsame | ⟨hmiss, hdir, hk⟩
      · exact Or.inl hsame
      · exact Or.inr ⟨hmiss, hdir, hdown t hk⟩
    · rename_i hthere
      have hnone : t.lookup (p ++ [c]) = none := not_ne_iff.mp hthere
      split
      · exact Or.inl rfl
      · by_cases hp : t.lookup p = some .dir
        · rcases ih (t.mkdir p c) (p ++ [c]) (n - 1) with hsame | ⟨hmiss, hdir, hk⟩
          · rw [hsame, lookup_mkdir t hp hnone]
            by_cases hq : q = p ++ [c]
            · subst hq
              exact Or.inr ⟨hnone, if_pos rfl, 1, by omega, by simp⟩
            · exact Or.inl (if_neg hq)
          · rw [lookup_mkdir t hp hnone] at hmiss
            split at hmiss
            · simp at hmiss
            · exact Or.inr ⟨hmiss, hdir, hdown t hk⟩
        · rw [mkdir, dif_neg (fun h => hp h.1)]
          rcases ih t (p ++ [c]) (n - 1) with hsame | ⟨hmiss, hdir, hk⟩
          · exact Or.inl hsame
          · exact Or.inr ⟨hmiss, hdir, hdown t hk⟩

/-- Nothing lies below a directory just made. -/
theorem lookup_below_mkdirs (t : FileTree ν β) {p : Loc ν} (hm : t.lookup p = none) (n : ℕ) (c : ν) :
    (t.mkdirs [] p n).lookup (p ++ [c]) = none := by
  have hbelow : t.lookup (p ++ [c]) = none := by
    by_contra hne
    rw [t.lookup_parent hne] at hm
    simp at hm
  rcases lookup_mkdirs t [] p n (p ++ [c]) with hsame | ⟨-, -, j, -, hj⟩
  · rw [hsame, hbelow]
  · have := congrArg List.length hj
    simp only [List.length_append, List.length_cons, List.length_nil, List.nil_append,
      List.length_take] at this
    omega

/-- On the way to something that is there, nothing is missing. -/
theorem mkdirs_present (t : FileTree ν β) {p : Loc ν} {cs : List ν} (n : ℕ)
    (h : t.lookup (p ++ cs) ≠ none) : t.mkdirs p cs n = t := by
  induction cs generalizing p with
  | nil => rfl
  | cons c cs ih =>
    have hc : t.lookup (p ++ [c]) ≠ none := by
      rcases eq_or_ne cs [] with rfl | hne
      · exact h
      · rw [t.lookup_above (p := p ++ [c]) cs hne (by simpa using h)]
        simp
    rw [mkdirs, if_pos hc]
    exact ih (by simpa using h)

theorem mkdirs_zero (t : FileTree ν β) (p : Loc ν) (cs : List ν) : t.mkdirs p cs 0 = t := by
  induction cs generalizing p with
  | nil => rfl
  | cons c cs ih =>
    rw [mkdirs]
    split
    · exact ih _
    · rfl

/-- With nothing in the way and enough calls, every location on the way becomes a directory. -/
theorem lookup_mkdirs_path (t : FileTree ν β) (p : Loc ν) (cs : List ν) (n : ℕ)
    (hp : t.lookup p = some .dir) (hfree : t.blocked p cs = false) (hn : cs.length ≤ n)
    {q : List ν} (hq : q <+: cs) : (t.mkdirs p cs n).lookup (p ++ q) = some .dir := by
  have hnofile : ∀ q b, q <+: cs → t.lookup (p ++ q) ≠ some (.file b) := by
    intro q b hq h
    rw [blocked_iff.mpr ⟨q, b, hq, h⟩] at hfree
    simp at hfree
  clear hfree
  induction cs generalizing t p n q with
  | nil => simpa [mkdirs, List.prefix_nil.mp hq] using hp
  | cons c cs ih =>
    have htop : ∀ {t' : FileTree ν β} {n'}, t'.lookup p = some .dir →
        (t'.mkdirs (p ++ [c]) cs n').lookup p = some .dir := by
      intro t' n' h'
      rcases lookup_mkdirs t' (p ++ [c]) cs n' p with h | ⟨h, -⟩
      · rw [h, h']
      · rw [h'] at h; simp at h
    rw [mkdirs]
    split
    · rename_i hthere
      obtain ⟨node, hsome⟩ := Option.ne_none_iff_exists'.mp hthere
      have hdir : t.lookup (p ++ [c]) = some .dir := by
        cases node with
        | dir => exact hsome
        | file b => exact absurd hsome (hnofile [c] b (by simp))
      rcases List.prefix_cons_iff.mp hq with rfl | ⟨q, rfl, hq'⟩
      · simpa using htop hp
      · have := ih t (p ++ [c]) n hdir (by simp at hn; omega) hq' fun q b hq => by
          simpa using hnofile (c :: q) b (by simpa using hq)
        simpa using this
    · rename_i hthere
      have hm := lookup_mkdir t hp (not_ne_iff.mp hthere)
      rw [if_neg (by simp at hn; omega)]
      rcases List.prefix_cons_iff.mp hq with rfl | ⟨q, rfl, hq'⟩
      · have hpm : (t.mkdir p c).lookup p = some .dir := by rw [hm, if_neg (by simp)]; exact hp
        simpa using htop hpm
      · have := ih (t.mkdir p c) (p ++ [c]) (n - 1) (by rw [hm, if_pos rfl])
          (by simp at hn; omega) hq' fun q b hq hb => by
            rw [hm] at hb
            split at hb
            · simp at hb
            · exact hnofile (c :: q) b (by simpa using hq) (by simpa using hb)
        simpa using this

omit [DecidableEq β] in
theorem blocked_down {t : FileTree ν β} {p : Loc ν} {c : ν} {cs : List ν} (h : t.blocked p (c :: cs) = false) :
    t.blocked (p ++ [c]) cs = false := by
  rw [Bool.eq_false_iff, Ne, blocked_iff] at h ⊢
  rintro ⟨q, b, hq, hb⟩
  exact h ⟨c :: q, b, by simpa using hq, by simpa using hb⟩

omit [DecidableEq β] in
theorem dir_of_not_blocked {t : FileTree ν β} {p : Loc ν} {c : ν} {cs : List ν}
    (h : t.blocked p (c :: cs) = false) (hc : t.lookup (p ++ [c]) ≠ none) : t.lookup (p ++ [c]) = some .dir := by
  obtain ⟨node, hsome⟩ := Option.ne_none_iff_exists'.mp hc
  cases node with
  | dir => exact hsome
  | file b =>
    rw [blocked_iff.mpr ⟨[c], b, by simp, hsome⟩] at h
    simp at h

/-- **One call suffices to make a directory that was missing.** -/
theorem mkdirs_makes (t : FileTree ν β) (p : Loc ν) (cs : List ν) {n : ℕ} (hn : 0 < n)
    (hp : t.lookup p = some .dir) (hfree : t.blocked p cs = false) (hm : t.lookup (p ++ cs) = none) :
    ∃ q, q <+: cs ∧ t.lookup (p ++ q) = none ∧ (t.mkdirs p cs n).lookup (p ++ q) = some .dir := by
  induction cs generalizing p with
  | nil =>
    rw [List.append_nil, hp] at hm
    simp at hm
  | cons c cs ih =>
    rw [mkdirs]
    split
    · rename_i hthere
      obtain ⟨q, hq, hnone, hdir⟩ := ih (p ++ [c]) (dir_of_not_blocked hfree hthere) (blocked_down hfree)
        (by simpa using hm)
      exact ⟨c :: q, by simpa using hq, by simpa using hnone, by simpa using hdir⟩
    · rename_i hthere
      have hnone : t.lookup (p ++ [c]) = none := not_ne_iff.mp hthere
      rw [if_neg (by omega)]
      refine ⟨[c], by simp, hnone, ?_⟩
      have hmade : (t.mkdir p c).lookup (p ++ [c]) = some .dir := by rw [lookup_mkdir t hp hnone, if_pos rfl]
      rcases lookup_mkdirs (t.mkdir p c) (p ++ [c]) cs (n - 1) (p ++ [c]) with h | ⟨h, -⟩
      · rw [h, hmade]
      · rw [hmade] at h; simp at h

omit [DecidableEq β] in
/-- Below a directory only the last location can be in the way. -/
theorem blocked_concat {t : FileTree ν β} {p q : Loc ν} {c : ν} (h : t.lookup (p ++ q) = some .dir) :
    t.blocked p (q ++ [c]) = true ↔ ∃ b, t.lookup (p ++ q ++ [c]) = some (.file b) := by
  rw [blocked_iff]
  constructor
  · rintro ⟨l, b, hl, hb⟩
    rcases List.prefix_concat_iff.mp hl with rfl | ⟨l', rfl⟩
    · exact ⟨b, by simpa using hb⟩
    · rcases eq_or_ne l' [] with rfl | hne
      · rw [List.append_nil] at h
        rw [h] at hb
        simp at hb
      · rw [t.lookup_above (p := p ++ l) l' hne (by rw [List.append_assoc, h]; simp)] at hb
        simp at hb
  · rintro ⟨b, hb⟩
    exact ⟨q ++ [c], b, List.prefix_refl _, by simpa using hb⟩

/-- How many of the locations from `p` down along `cs` are missing. -/
def missingFrom (t : FileTree ν β) (p : Loc ν) (cs : List ν) : ℕ :=
  (cs.inits.filter fun q => t.lookup (p ++ q) = none).length

/-- How many of the locations from the root to `p` are missing. -/
def missing (t : FileTree ν β) (p : Loc ν) : ℕ := t.missingFrom [] p

/-- Gives the file at `p` the content `b`. -/
def write (t : FileTree ν β) (p : Loc ν) (b : β) : Option (FileTree ν β) :=
  match p.getLast? with
  | some c => t.setFile p.dropLast c b
  | none => none

@[simp] theorem write_concat (t : FileTree ν β) (p : Loc ν) (c : ν) (b : β) :
    t.write (p ++ [c]) b = t.setFile p c b := by
  rw [write, List.getLast?_concat, List.dropLast_concat]

end FileTree

end SxtEnterprise
