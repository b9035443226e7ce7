import SxtEnterprise.FileTree
import SxtEnterprise.NumberedNames

/-!
# Path strings and what they resolve to

A path string is cut at its slashes.  Empty parts and `.` name nothing of their own, except that a
string ending in one of them can only name a directory; a string starting with a slash forgets what it
is joined to; and `..` steps back.  `Path` keeps a path as the location it starts from, the parts that
are left, and how it ends.

* `Path.join` is joining a string on, `Path.loc` the location the path spells out.
* `node` resolves a path in a tree, one part at a time, so that `..` after something missing is an
  error rather than a step back.  For a path without `..` this is a lookup (`node_straight`).
* `Plain` names are the strings that are exactly one part.
-/

namespace SxtEnterprise.Paths

open SxtEnterprise.NumberedNames

/-- The part that steps back. -/
def dotdot : Name := ['.', '.']

/-- The parts of a path string that name something. -/
def components (s : Name) : List Name := (s.splitOn '/').filter fun c => c ≠ [] ∧ c ≠ ['.']

/-- How a path ends: in a name, in a slash, or in a dot. -/
inductive Trail where
  | bare
  | slash
  | dot
  deriving DecidableEq

/-- How a path string ends. -/
def trailOf (s : Name) : Trail :=
  match (s.splitOn '/').getLast? with
  | some [] => .slash
  | some ['.'] => .dot
  | _ => .bare

/-- A path: where it starts, the parts that lead on from there, and how it ends. -/
structure Path where
  start : Loc Name
  comps : List Name
  trail : Trail
  deriving DecidableEq

namespace Path

/-- The path of a location. -/
def ofLoc (p : Loc Name) : Path := ⟨p, [], .bare⟩

/-- `p` with the string `s` joined on; an absolute `s` replaces `p`. -/
def join (p : Path) (s : Name) : Path :=
  if s.head? = some '/' then ⟨[], components s, trailOf s⟩
  else ⟨p.start, p.comps ++ components s, trailOf s⟩

/-- One part further from `cur`. -/
def stepTo (cur : Loc Name) (c : Name) : Loc Name := if c = dotdot then cur.dropLast else cur ++ [c]

/-- The location `p` spells out. -/
def loc (p : Path) : Loc Name := p.comps.foldl stepTo p.start

/-- The path cannot be handed to the operating system. -/
def hasNul (p : Path) : Bool := p.comps.any fun c => c.contains '\x00'

/-- The path never steps back. -/
def Straight (p : Path) : Prop := dotdot ∉ p.comps

theorem loc_straight {p : Path} (h : p.Straight) : p.loc = p.start ++ p.comps := by
  obtain ⟨start, comps, trail⟩ := p
  simp only [Straight, loc] at h ⊢
  induction comps generalizing start with
  | nil => simp
  | cons c cs ih =>
    rw [List.mem_cons, not_or] at h
    rw [List.foldl_cons, stepTo, if_neg (fun hc => h.1 hc.symm), ih _ h.2]
    simp

end Path

/-! ### Plain names -/

/-- A string that is exactly one part, and names something of its own. -/
structure Plain (s : Name) : Prop where
  ne_nil : s ≠ []
  ne_dot : s ≠ ['.']
  ne_dotdot : s ≠ dotdot
  no_slash : '/' ∉ s

instance (s : Name) : Decidable (Plain s) :=
  decidable_of_iff (s ≠ [] ∧ s ≠ ['.'] ∧ s ≠ dotdot ∧ '/' ∉ s)
    ⟨fun h => ⟨h.1, h.2.1, h.2.2.1, h.2.2.2⟩, fun h => ⟨h.1, h.2, h.3, h.4⟩⟩

theorem components_cons_slash (s : Name) : components ('/' :: s) = components s := by
  rw [components, components, List.splitOn_cons_eq_if_modifyHead, if_pos (by decide),
    List.filter_cons_of_neg (by decide)]

/-- No part of a string holds what it was split at. -/
theorem notMem_of_mem_splitOn {s q : Name} {c : Char} (h : q ∈ s.splitOn c) : c ∉ q := by
  induction s generalizing q with
  | nil =>
    rw [List.splitOn_nil, List.mem_singleton] at h
    simp [h]
  | cons d s ih =>
    rw [List.splitOn_cons_eq_if_modifyHead] at h
    split at h
    · rcases List.mem_cons.mp h with rfl | h
      · simp
      · exact ih h
    · rename_i hd
      rcases hs : s.splitOn c with _ | ⟨t, ts⟩
      · exact absurd hs (List.splitOn_ne_nil _ _)
      · rw [hs, List.modifyHead_cons, List.mem_cons] at h
        have htop := ih (q := t) (by rw [hs]; simp)
        rcases h with rfl | h
        · rw [List.mem_cons, not_or]
          exact ⟨fun hc => hd (by simp [hc]), htop⟩
        · exact ih (by rw [hs]; simp [h])

/-- **A way cut short is a way too**: the first parts of a string, spelled out. -/
theorem components_intercalate {s : Name} {q : List Name} (hq : q <+: components s) :
    components (['/'].intercalate q) = q ∧ (['/'].intercalate q).head? ≠ some '/' := by
  have hpart : ∀ c ∈ q, '/' ∉ c ∧ c ≠ [] ∧ c ≠ ['.'] := by
    intro c hc
    have hmem := hq.subset hc
    rw [components, List.mem_filter] at hmem
    exact ⟨notMem_of_mem_splitOn hmem.1, by simpa using hmem.2⟩
  cases q with
  | nil => exact ⟨rfl, by simp⟩
  | cons c q =>
    constructor
    · rw [components, List.splitOn_intercalate '/' (fun l hl => (hpart l hl).1) (by simp), List.filter_eq_self]
      intro l hl
      simpa using (hpart l hl).2
    · intro hhead
      obtain ⟨hslash, hne, -⟩ := hpart c (by simp)
      cases c with
      | nil => exact hne rfl
      | cons d c =>
        have : (['/'].intercalate ((d :: c) :: q)).head? = some d := by
          cases q with
          | nil => simp
          | cons => simp [List.intercalate_cons_cons]
        rw [this, Option.some.injEq] at hhead
        exact hslash (by simp [hhead])

theorem Plain.components {s : Name} (h : Plain s) : Paths.components s = [s] := by
  rw [Paths.components, List.splitOn_eq_singleton h.no_slash]
  simp [h.ne_nil, h.ne_dot]

theorem Plain.trailOf {s : Name} (h : Plain s) : Paths.trailOf s = .bare := by
  rw [Paths.trailOf, List.splitOn_eq_singleton h.no_slash]
  simp only [List.getLast?_singleton]
  split
  · rename_i hs; exact absurd (Option.some.inj hs) h.ne_nil
  · rename_i hs; exact absurd (Option.some.inj hs) h.ne_dot
  · rfl

theorem Plain.head {s : Name} (h : Plain s) : s.head? ≠ some '/' := by
  intro hs
  exact h.no_slash (List.mem_of_head? hs)

theorem Plain.join {s : Name} (h : Plain s) (p : Path) :
    p.join s = ⟨p.start, p.comps ++ [s], .bare⟩ := by
  rw [Path.join, if_neg h.head, h.components, h.trailOf]

theorem Plain.join_loc {s : Name} (h : Plain s) (p : Path) : (p.join s).loc = p.loc ++ [s] := by
  rw [h.join, Path.loc, List.foldl_append, List.foldl_cons, List.foldl_nil, Path.stepTo,
    if_neg h.ne_dotdot]
  rfl

theorem Plain.join_straight {s : Name} (h : Plain s) {p : Path} (hp : p.Straight) :
    (p.join s).Straight := by
  rw [h.join, Path.Straight, List.mem_append, List.mem_singleton, not_or]
  exact ⟨hp, fun hs => h.ne_dotdot hs.symm⟩

/-! ### Resolving a path in a tree -/

section Resolve

variable {β : Type} (t : FileTree Name β)

/-- Where the parts `cs` lead from `cur`, through directories that exist. -/
def walk [DecidableEq β] : Loc Name → List Name → Option (Loc Name)
  | cur, [] => some cur
  | cur, c :: cs => if t.lookup cur = some .dir then walk (Path.stepTo cur c) cs else none

/-- What a path ending in a slash or a dot may name. -/
def endsAs (trail : Trail) : Option (Node β) → Option (Node β)
  | some (.file b) => if trail = .bare then some (.file b) else none
  | n => n

/-- What the path names. -/
def node [DecidableEq β] (p : Path) : Option (Node β) :=
  endsAs p.trail ((walk t p.start p.comps).bind t.lookup)

variable [DecidableEq β]

theorem walk_bind_lookup {cs : List Name} (h : dotdot ∉ cs) (cur : Loc Name) :
    (walk t cur cs).bind t.lookup = t.lookup (cur ++ cs) := by
  induction cs generalizing cur with
  | nil => simp [walk]
  | cons c cs ih =>
    rw [List.mem_cons, not_or] at h
    rw [walk]
    split
    · rw [Path.stepTo, if_neg (fun hc => h.1 hc.symm), ih h.2]
      simp
    · rename_i hcur
      by_contra hne
      exact hcur (t.lookup_above (c :: cs) (by simp) (fun h => hne (by rw [h]; rfl)))

/-- **A path that never steps back** names what lies at its location. -/
theorem node_straight {p : Path} (h : p.Straight) : node t p = endsAs p.trail (t.lookup p.loc) := by
  rw [node, walk_bind_lookup t h, Path.loc_straight h]

omit [DecidableEq β] in
@[simp] theorem endsAs_bare (n : Option (Node β)) : endsAs .bare n = n := by
  rcases n with _ | _ | b <;> rfl

omit [DecidableEq β] in
@[simp] theorem endsAs_eq_dir {trail : Trail} {n : Option (Node β)} :
    endsAs trail n = some .dir ↔ n = some .dir := by
  rcases n with _ | _ | b
  · exact Iff.rfl
  · exact Iff.rfl
  · rw [endsAs]; split <;> simp

omit [DecidableEq β] in
theorem endsAs_eq_none {trail : Trail} {n : Option (Node β)} (h : n = none) :
    endsAs trail n = none := by
  rw [h]; rfl

/-- A plain name in a directory. -/
theorem node_join {s : Name} (hs : Plain s) {p : Path} (h : p.Straight) :
    node t (p.join s) = t.lookup (p.loc ++ [s]) := by
  rw [node_straight t (hs.join_straight h), hs.join_loc, hs.join, endsAs_bare]

end Resolve

/-! ### File name extensions -/

/-- What follows the last dot of a file name, unless the name has no other part. -/
def extension (c : Name) : Option Name :=
  let after := (c.reverse.takeWhile (· ≠ '.')).reverse
  if '.' ∈ c ∧ c ≠ dotdot ∧ c ≠ '.' :: after then some after else none

/-- A name with something before a last dot has what follows it as its extension. -/
theorem extension_append {stem ext : Name} (hs : stem ≠ []) (hdot : stem ≠ ['.'] ∨ ext ≠ [])
    (hext : '.' ∉ ext) : extension (stem ++ '.' :: ext) = some ext := by
  have hafter : ((stem ++ '.' :: ext).reverse.takeWhile (· ≠ '.')).reverse = ext := by
    rw [List.reverse_append, List.reverse_cons, List.append_assoc, List.takeWhile_append_of_pos]
    · simp
    · intro c hc
      rw [decide_eq_true_eq]
      rintro rfl
      exact hext (List.mem_reverse.mp hc)
  rw [extension]
  simp only [hafter]
  rw [if_pos]
  refine ⟨by simp, ?_, ?_⟩
  · intro h
    have hl := congrArg List.length h
    simp only [dotdot, List.length_append, List.length_cons, List.length_nil] at hl
    have hpos : 0 < stem.length := List.length_pos_iff.mpr hs
    have he : ext = [] := List.eq_nil_of_length_eq_zero (by omega)
    subst he
    have h2 : stem ++ ['.'] = ['.'] ++ ['.'] := h
    exact hdot.elim (fun hd => hd (List.append_cancel_right h2)) (fun he => he rfl)
  · intro h
    have hl := congrArg List.length h
    have hpos : 0 < stem.length := List.length_pos_iff.mpr hs
    simp only [List.length_append, List.length_cons] at hl
    omega

end SxtEnterprise.Paths
