import SxtEnterprise.Cli
import SxtEnterprise.FailedCreate
import SxtEnterprise.Independence
import SxtEnterprise.ReadOrder

/-!
# When the database is a finite map

`Mapped` is the invariant that makes the directories in the database's own a finite map from references
to tables: what lies there is the cache file of the setup and one directory for each table created.
It is kept by proper steps (`Proper`): creates under names of their own, with at least one column, that go all
the way through, and any other call on such names or on paths that lead to nothing.  A reference that is not a
name of its own breaks the map: the cache file counts as a table, and so do directories on the way to one.  So
does a table without columns, which is created and cannot be read.
-/

namespace SxtEnterprise

open NumberedNames Paths FaultyRun

namespace Db

open Cli (cacheName)

/-- A reference that can be the key of a table. -/
def IsKey (r : TableRef) : Prop := r.Own ∧ r.toString ≠ cacheName

instance (r : TableRef) : Decidable (IsKey r) := inferInstanceAs (Decidable (_ ∧ _))

variable {ρ κ σ : Type} (L : Libs ρ κ σ) (db : Db)

/-- The table `r` has been created. -/
def Created (hist : List (Event ρ σ)) (r : TableRef) : Prop := ∃ e ∈ hist, ∃ s, e.created r = some s

/-- A create is under a key that is there, or can never be, or it is given what it needs, a column among it; or it
is stopped before it makes anything.  Every other call is on keys, or on what is not there. -/
def Proper (fs : Fs) (e : Event ρ σ) : Prop :=
  match e.call with
  | .createTable r s setup =>
    r.Parsed ∧ (NothingMade db fs r e.fates ∨ (IsKey r ∧ (db.present fs r = true ∨
      r.toString.contains '\x00' = true ∨ (e.fates = [] ∧ s ≠ [] ∧
        Accepts L (RecordBatch.newEmpty s) (L.commitBatch (RecordBatch.newEmpty s) 0 setup)))))
  | call => ∀ r ∈ call.refs, r.Parsed ∧ (IsKey r ∨ db.present fs r = false)

/-- One proper call on the file system. -/
def ProperStep (fs : Fs) (e : Event ρ σ) (fs' : Fs) : Prop := Step L db fs e fs' ∧ Proper L db fs e

/-- What lies directly in the database's directory. -/
structure Mapped (hist : List (Event ρ σ)) (fs : Fs) : Prop where
  root : fs.lookup db.dir = some .dir
  cache : ∃ bytes, fs.lookup (db.dir ++ [cacheName]) = some (.file bytes)
  created : ∀ r, Created hist r → IsKey r ∧ r.toString.contains '\x00' = false ∧
    fs.lookup (db.dir ++ [r.toString]) = some .dir
  only : ∀ c, fs.lookup (db.dir ++ [c]) ≠ none → c = cacheName ∨ ∃ r, Created hist r ∧ r.toString = c

/-! ### What is asked of a finite map -/

section Map

variable {L db} {hist : List (Event ρ σ)} {fs fs' : Fs} {e : Event ρ σ} {r u : TableRef}

theorem created_concat : Created (hist ++ [e]) r ↔ Created hist r ∨ ∃ s, e.created r = some s := by
  simp only [Created, List.mem_append, List.mem_singleton]
  constructor
  · rintro ⟨e', he | rfl, hs⟩
    · exact Or.inl ⟨e', he, hs⟩
    · exact Or.inr hs
  · rintro (⟨e', he, hs⟩ | hs)
    · exact ⟨e', Or.inl he, hs⟩
    · exact ⟨e, Or.inr rfl, hs⟩

/-- A step that changes no entry of the database's directory and creates nothing. -/
theorem Mapped.keep (h : Mapped db hist fs) (hroot : fs'.lookup db.dir = some .dir)
    (hsame : ∀ c, fs'.lookup (db.dir ++ [c]) = fs.lookup (db.dir ++ [c])) (hnone : ∀ r, e.created r = none) :
    Mapped db (hist ++ [e]) fs' := by
  have hiff : ∀ r, Created (hist ++ [e]) r ↔ Created hist r := fun r => by
    rw [created_concat, hnone r]
    simp
  refine ⟨hroot, by rw [hsame]; exact h.cache, fun r hr => ?_, fun c hc => ?_⟩
  · rw [hsame]
    exact h.created r ((hiff r).mp hr)
  · rw [hsame] at hc
    exact (h.only c hc).imp id fun ⟨r, hr, hs⟩ => ⟨r, (hiff r).mpr hr, hs⟩

/-- A call on what is not there changes nothing. -/
theorem Step.state_of_missing (hstep : Step L db fs e fs') (hd : fs.lookup db.dir = some .dir)
    (hcall : ∀ r s setup, e.call ≠ .createTable r s setup) (hm : ∀ r ∈ e.call.refs, db.present fs r = false) :
    fs' = fs := by
  by_cases hins : ∃ r b setup, e.call = .insert r b setup
  · obtain ⟨r, b, setup, hc⟩ := hins
    obtain ⟨hl, w', hrun, rfl⟩ := hstep
    have hmr := hm r (by simp [hc, Call.refs])
    have hnot : (Db.insert L db r b setup ⟨fs, e.fates, []⟩).1 = .err (.notFound r) := insert_notFound hmr
    rw [hc] at hrun
    change insert L db r b setup _ = _ at hrun
    rw [hrun] at hnot
    exact insert_turnedAway (w := ⟨fs, e.fates, []⟩) (d := .notFound r) (by simp [DbError.Internal])
      (hrun.trans (Prod.ext hnot rfl))
  · exact hstep.same_of_read (by rw [hd]; simp) ⟨hcall, fun r b setup hc => hins ⟨r, b, setup, hc⟩⟩

theorem created_none_of_call (hcall : ∀ r s setup, e.call ≠ .createTable r s setup) (r : TableRef) :
    e.created r = none := by
  by_contra hne
  obtain ⟨s, hs⟩ := Option.ne_none_iff_exists'.mp hne
  obtain ⟨setup, hc, -⟩ := Event.created_eq_some.mp hs
  exact hcall r s setup hc

theorem created_none_of_outcome (ho : e.outcome ≠ .ok ()) (r : TableRef) : e.created r = none := by
  by_contra hne
  obtain ⟨s, hs⟩ := Option.ne_none_iff_exists'.mp hne
  obtain ⟨-, -, hok⟩ := Event.created_eq_some.mp hs
  exact ho hok

/-- A table with a name of its own is there if something lies under that name. -/
theorem lookup_of_not_present (hr : r.Own) (hnul : r.toString.contains '\x00' = false)
    (h : db.present fs r = false) : fs.lookup (db.tableDir r).loc = none := by
  rw [present, hasNul_tableDir_plain db hr.2, hnul, node_straight fs (tableDir_straight db hr.1),
    show (db.tableDir r).trail = .bare by rw [tableDir_plain db hr.2], endsAs_bare] at h
  simpa using h

/-- **What a proper step does**: nothing, or an insert under a key, or the creation of a new key. -/
theorem ProperStep.cases (h : Mapped db hist fs) (hp : ProperStep L db fs e fs') :
    (fs' = fs ∧ ∀ r, e.created r = none) ∨ (∃ r b setup, e.call = .insert r b setup ∧ IsKey r) ∨
    ∃ r s setup, e.call = .createTable r s setup ∧ IsKey r ∧ r.toString.contains '\x00' = false ∧
      fs.lookup (db.tableDir r).loc = none ∧ e.outcome = .ok () ∧ s ≠ [] := by
  obtain ⟨hstep, hproper⟩ := hp
  by_cases hcreate : ∃ r s setup, e.call = .createTable r s setup
  · obtain ⟨r, s, setup, hc⟩ := hcreate
    obtain ⟨call, fates, outcome⟩ := e
    obtain rfl : call = .createTable r s setup := hc
    obtain ⟨hl, w', hrun, rfl⟩ := hstep
    change createTable L db r s setup ⟨fs, fates, []⟩ = (outcome, w') at hrun
    obtain ⟨hr, hnothing | ⟨hkey, hwhy⟩⟩ := hproper
    · refine Or.inl ⟨hnothing.state hr hl hrun, created_none_of_outcome ?_⟩
      rintro rfl
      have hdir := (Stored.of_createTable hr hl hrun).2.isDir
      rw [hnothing.state hr hl hrun, hnothing.missing] at hdir
      simp at hdir
    · rcases hpres : db.present fs r with _ | _
      · rcases hnul : r.toString.contains '\x00' with _ | _
        · refine Or.inr (Or.inr ⟨r, s, setup, rfl, hkey, hnul, lookup_of_not_present hkey.1 hnul hpres, ?_⟩)
          rcases hwhy with hthere | hnul' | ⟨hcalm, hcol, hacc⟩
          · rw [hpres] at hthere; simp at hthere
          · rw [hnul] at hnul'; simp at hnul'
          · have hmiss := lookup_of_not_present hkey.1 hnul hpres
            have hcalm : fates = [] := hcalm
            have hloc := tableDir_loc_plain db hkey.1.2
            have hfree : fs.blocked [] (db.tableDir r).loc = false := by
              rw [Bool.eq_false_iff, Ne, hloc, FileTree.blocked_concat (by simpa using h.root)]
              rintro ⟨b, hb⟩
              rw [hloc] at hmiss
              rw [List.nil_append, hmiss] at hb
              simp at hb
            have hok := createTable_run (L := L) (w := ⟨fs, fates, []⟩) hr hcalm hmiss
              (by rw [hasNul_tableDir_plain db hkey.1.2, hnul]) hfree
              (by rw [tableDir_plain db hkey.1.2]; simp) hacc
            rw [hrun] at hok
            exact ⟨hok, hcol⟩
        · left
          have hn : (db.tableDir r).hasNul = true := by rw [hasNul_tableDir_plain db hkey.1.2, hnul]
          refine ⟨?_, created_none_of_outcome ?_⟩
          · rcases createTable_fails (w := ⟨fs, fates, []⟩) hl hpres hr hrun with
              ⟨-, hn', -⟩ | ⟨-, hw'⟩ | ⟨-, hw'⟩ | ⟨hdot, -⟩ | ⟨hn', -⟩
            · rw [hn] at hn'; simp at hn'
            · exact hw'
            · exact hw'
            · rw [tableDir_plain db hkey.1.2] at hdot; simp at hdot
            · rw [hn] at hn'; simp at hn'
          · rintro rfl
            have := (createTable_ok_needs (w := ⟨fs, fates, []⟩) hl hrun).1
            rw [hn] at this
            simp at this
      · rcases createTable_cases (w := ⟨fs, fates, []⟩) hl hrun with ⟨-, rfl, hsame⟩ | ⟨hp', -⟩
        · exact Or.inl ⟨hsame, created_none_of_outcome (by simp)⟩
        · rw [hpres] at hp'; simp at hp'
  · have hcall : ∀ r s setup, e.call ≠ .createTable r s setup := fun r s setup hc => hcreate ⟨r, s, setup, hc⟩
    have hrefs : ∀ r ∈ e.call.refs, r.Parsed ∧ (IsKey r ∨ db.present fs r = false) := by
      obtain ⟨call, fates, outcome⟩ := e
      cases call with
      | createTable r s setup => exact absurd rfl (hcall r s setup)
      | _ => exact hproper
    by_cases hins : ∃ r b setup, e.call = .insert r b setup
    · obtain ⟨r, b, setup, hc⟩ := hins
      rcases (hrefs r (by simp [hc, Call.refs])).2 with hkey | hm
      · exact Or.inr (Or.inl ⟨r, b, setup, hc, hkey⟩)
      · refine Or.inl ⟨hstep.state_of_missing h.root hcall fun r' hr' => ?_, created_none_of_call hcall⟩
        rw [hc] at hr'
        obtain rfl : r' = r := by simpa [Call.refs] using hr'
        exact hm
    · exact Or.inl ⟨hstep.same_of_read (by rw [h.root]; simp)
        ⟨hcall, fun r b setup hc => hins ⟨r, b, setup, hc⟩⟩, created_none_of_call hcall⟩

/-- **A proper step keeps the map.** -/
theorem Mapped.step (h : Mapped db hist fs) (hp : ProperStep L db fs e fs') : Mapped db (hist ++ [e]) fs' := by
  rcases hp.cases h with ⟨rfl, hnone⟩ | ⟨r, b, setup, hc, hkey⟩ | ⟨r, s, setup, hc, hkey, hnul, hmiss, hok, -⟩
  · exact h.keep h.root (fun _ => rfl) hnone
  · have hown : ∀ r' ∈ e.call.refs, r'.Own := by
      rw [hc]
      simpa [Call.refs] using hkey.1
    have hcall : ∀ r s setup, e.call ≠ .createTable r s setup := by
      rw [hc]
      simp
    exact h.keep (hp.1.root (fun r' hr' => (hown r' hr').1) h.root)
      (fun c => hp.1.entry h.root hown fun r s setup hc' => absurd hc' (hcall r s setup))
      (created_none_of_call hcall)
  · have hown : ∀ r' ∈ e.call.refs, r'.Own := by
      rw [hc]
      simpa [Call.refs] using hkey.1
    have hroot := hp.1.root (fun r' hr' => (hown r' hr').1) h.root
    have hentry : ∀ c, c ≠ r.toString → fs'.lookup (db.dir ++ [c]) = fs.lookup (db.dir ++ [c]) := by
      intro c hne
      refine hp.1.entry h.root hown fun r' s' setup' hc' => ?_
      rw [hc] at hc'
      obtain ⟨rfl, -, -⟩ : r = r' ∧ s = s' ∧ setup = setup' := by simpa using hc'
      exact hne
    have hdir : fs'.lookup (db.dir ++ [r.toString]) = some .dir := by
      obtain ⟨call, fates, outcome⟩ := e
      obtain rfl : call = .createTable r s setup := hc
      obtain rfl : outcome = .ok () := hok
      obtain ⟨hl, w', hrun, rfl⟩ := hp.1
      rw [← tableDir_loc_plain db hkey.1.2]
      exact (Stored.of_createTable hkey.1.1 hl hrun).2.isDir
    have hcreated : ∀ r', Created (hist ++ [e]) r' ↔ Created hist r' ∨ r' = r := by
      intro r'
      rw [created_concat]
      refine or_congr_right ⟨?_, ?_⟩
      · rintro ⟨s', hs'⟩
        obtain ⟨setup', hc', -⟩ := Event.created_eq_some.mp hs'
        rw [hc] at hc'
        simpa [Call.refs] using (congrArg Call.refs hc').symm
      · rintro rfl
        exact ⟨s, Event.created_eq_some.mpr ⟨setup, hc, hok⟩⟩
    refine ⟨hroot, ?_, fun r' hr' => ?_, fun c hcne => ?_⟩
    · rw [hentry _ (Ne.symm hkey.2)]
      exact h.cache
    · rcases (hcreated r').mp hr' with hold | rfl
      · obtain ⟨hk, hn, hd⟩ := h.created r' hold
        refine ⟨hk, hn, ?_⟩
        by_cases hs : r'.toString = r.toString
        · rw [hs]; exact hdir
        · rw [hentry _ hs]; exact hd
      · exact ⟨hkey, hnul, hdir⟩
    · by_cases hs : c = r.toString
      · exact Or.inr ⟨r, (hcreated r).mpr (Or.inr rfl), hs.symm⟩
      · rw [hentry _ hs] at hcne
        rcases h.only c hcne with hcache | ⟨r', hr', hs'⟩
        · exact Or.inl hcache
        · exact Or.inr ⟨r', (hcreated r').mpr (Or.inl hr'), hs'⟩

/-- An error ends everything that was to come. -/
theorem err_bind {α β : Type} {m : Io DbError α} {f : α → Io DbError β} {w : World Fs (Loc Name)} {d : DbError}
    (h : (m w).1 = .err d) : ((m >>= f) w).1 = .err d := by
  rw [Prog.andThen_run, h]
  rfl

/-- Every call but a create answers that what is not there was not found, whatever befalls it. -/
theorem Call.notFound {call : Call ρ σ} {w : World Fs (Loc Name)} (hrefs : call.refs = [r])
    (hcall : ∀ s setup, call ≠ .createTable r s setup) (h : db.present w.state r = false) :
    (call.prog L db w).1 = .err (.notFound r) := by
  have hkeyed : ∀ {α : Type} (f : TableRef → Io DbError α), (f r w).1 = .err (.notFound r) →
      (((fun _ => ()) <$> (do
        let entries ← [r].mapM fun r => do
          let a ← f r
          pure (r, a)
        pure (IndexMap.collect entries) : Io DbError _) : Io DbError Unit) w).1 = .err (.notFound r) := by
    intro α f hf
    rw [map_eq_pure_bind, List.mapM_cons, bind_assoc, bind_assoc, bind_assoc]
    exact err_bind hf
  cases call with
  | openAt => simp [Call.refs] at hrefs
  | tables => simp [Call.refs] at hrefs
  | createTable r' s setup =>
    obtain rfl : r' = r := by simpa [Call.refs] using hrefs
    exact absurd rfl (hcall s setup)
  | insert r' b setup =>
    obtain rfl : r' = r := by simpa [Call.refs] using hrefs
    exact insert_notFound h
  | schema r' =>
    obtain rfl : r' = r := by simpa [Call.refs] using hrefs
    change (((fun _ => ()) <$> Db.schema L db r' : Io DbError Unit) w).1 = _
    rw [map_eq_pure_bind]
    exact err_bind (ifPresent_notFound h)
  | data rs =>
    obtain rfl : rs = [r] := hrefs
    exact hkeyed _ (ifPresent_notFound h)
  | commitments rs =>
    obtain rfl : rs = [r] := hrefs
    exact hkeyed _ (ifPresent_notFound h)

/-- **The keys of the map are what is listed**, each once. -/
theorem Mapped.listed (h : Mapped db hist fs) :
    ∃ ts, (tables db).eval fs = .ok ts ∧ ts.Nodup ∧ ∀ r, r ∈ ts ↔ Created hist r := by
  have hnames : ∀ c ∈ fs.children db.dir, c ≠ dotdot := by
    intro c hc
    rcases h.only c (FileTree.mem_children.mp hc) with rfl | ⟨r, hr, rfl⟩
    · decide
    · exact (h.created r hr).1.1.2.ne_dotdot
  refine ⟨_, eval_tables h.root hnames, ?_, fun r => ?_⟩
  · refine List.Nodup.filterMap (fun c c' r hc hc' => ?_) ((FileTree.nodup_children fs db.dir).filter _)
    rw [← TableRef.toString_of_fromStr (Option.mem_def.mp hc), ← TableRef.toString_of_fromStr (Option.mem_def.mp hc')]
  · rw [List.mem_filterMap]
    constructor
    · rintro ⟨c, hc, hparse⟩
      obtain ⟨hchild, hdir⟩ := List.mem_filter.mp hc
      rw [Bool.and_eq_true, decide_eq_true_eq] at hdir
      rcases h.only c (FileTree.mem_children.mp hchild) with rfl | ⟨r', hr', rfl⟩
      · obtain ⟨b, hb⟩ := h.cache
        rw [hb] at hdir
        simp at hdir
      · rw [TableRef.fromStr_toString (h.created r' hr').1.1.1, Option.some.injEq] at hparse
        exact hparse ▸ hr'
    · intro hr
      obtain ⟨hkey, hnul, hdir⟩ := h.created r hr
      refine ⟨r.toString, List.mem_filter.mpr ⟨FileTree.mem_children.mpr (by rw [hdir]; simp), ?_⟩,
        TableRef.fromStr_toString hkey.1.1⟩
      rw [hnul, hdir]
      rfl

/-! ### Runs -/

theorem ProperStep.parsed (hp : ProperStep L db fs e fs') : ∀ r ∈ e.call.refs, r.Parsed := by
  obtain ⟨call, fates, outcome⟩ := e
  obtain ⟨-, hproper⟩ := hp
  cases call with
  | createTable r s setup =>
    intro r' hr'
    obtain rfl : r' = r := by simpa [Call.refs] using hr'
    exact hproper.1
  | _ => exact fun r hr => (hproper r hr).1

/-- The map, and in the directory of each table a log under its columns. -/
structure MappedLogs (L : Libs ρ κ σ) (db : Db) (hist : List (Event ρ σ)) (fs : Fs) : Prop
    extends Mapped db hist fs where
  tidy : ∀ c, Tidy fs (db.dir ++ [c])
  stored : ∀ u, Created hist u → (∀ e ∈ hist, e.SettledAt db (db.tableDir u).loc) →
    ∃ log idx, log.schema ≠ [] ∧ Stored L fs (db.tableDir u).loc log idx

theorem MappedLogs.start (hroot : fs.lookup db.dir = some .dir) {bytes : Bytes}
    (hcache : fs.lookup (db.dir ++ [cacheName]) = some (.file bytes))
    (hnone : ∀ c, c ≠ cacheName → fs.lookup (db.dir ++ [c]) = none) : MappedLogs L db [] fs := by
  have hno : ∀ r, ¬ Created ([] : List (Event ρ σ)) r := by
    rintro r ⟨e, he, -⟩
    simp at he
  refine ⟨⟨hroot, ⟨bytes, hcache⟩, fun r hr => absurd hr (hno r), fun c hc => ?_⟩, fun c d _ hd => ?_,
    fun u hu => absurd hu (hno u)⟩
  · by_contra hne
    rw [not_or] at hne
    exact hc (hnone c hne.1)
  · have hparent := fs.lookup_parent (p := db.dir ++ [c]) (c := d) (by rw [hd]; simp)
    by_cases hc : c = cacheName
    · rw [hc, hcache] at hparent
      simp at hparent
    · rw [hnone c hc] at hparent
      simp at hparent

theorem MappedLogs.step (hL : L.Lawful) (h : MappedLogs L db hist fs) (hp : ProperStep L db fs e fs') :
    MappedLogs L db (hist ++ [e]) fs' where
  toMapped := h.toMapped.step hp
  tidy c := by
    have hparsed := hp.parsed
    rcases hp.cases h.toMapped with ⟨rfl, -⟩ | ⟨r, b, setup, hc, -⟩ | ⟨r, s, setup, hc, hkey, -⟩
    · exact h.tidy c
    · obtain ⟨call, fates, outcome⟩ := e
      obtain rfl : call = .insert r b setup := hc
      obtain ⟨hl, w', hrun, rfl⟩ := hp.1
      exact fun d hd hdir => h.tidy c d hd
        ((insert_isDir_iff (w := ⟨fs, fates, []⟩) (hparsed r (by simp [Call.refs])) hl hrun _).mp hdir)
    · obtain ⟨call, fates, outcome⟩ := e
      obtain rfl : call = .createTable r s setup := hc
      obtain ⟨hl, w', hrun, rfl⟩ := hp.1
      intro d hd hdir
      rcases createTable_isDir (w := ⟨fs, fates, []⟩) hl hrun hdir with hdir | hpre
      · exact h.tidy c d hd hdir
      · have hlen := hpre.length_le
        rw [tableDir_loc_plain db hkey.1.2] at hlen
        simp at hlen
  stored u hu hsettled := by
    by_cases hold : Created hist u
    · obtain ⟨log, idx, hcol, hs⟩ := h.stored u hold fun e' he' => hsettled e' (by simp [he'])
      obtain ⟨idx', hs'⟩ := hs.step hL hp.parsed (hsettled e (by simp)) hp.1
      exact ⟨⟨log.schema, log.batches ++ (e.insertedAt db (db.tableDir u).loc).toList⟩, idx', hcol, hs'⟩
    · obtain ⟨s, hs⟩ := (created_concat.mp hu).resolve_left hold
      obtain ⟨setup, hc, ho⟩ := Event.created_eq_some.mp hs
      have hparsed := hp.parsed
      have hcol : s ≠ [] := by
        rcases hp.cases h.toMapped with ⟨-, hnone⟩ | ⟨r, b, setup', hc', -⟩ | ⟨r, s', setup', hc', -, -, -, -, hcol⟩
        · rw [hnone u] at hs
          simp at hs
        · rw [hc] at hc'
          simp at hc'
        · rw [hc, Call.createTable.injEq] at hc'
          exact hc'.2.1 ▸ hcol
      obtain ⟨call, fates, outcome⟩ := e
      obtain rfl : call = .createTable u s setup := hc
      obtain rfl : outcome = .ok () := ho
      obtain ⟨hl, w', hrun, rfl⟩ := hp.1
      exact ⟨_, _, hcol, (Stored.of_createTable (hparsed u (by simp [Call.refs])) hl hrun).2⟩

end Map

section Sample

open SampleLibs

/-- A database just opened where the setup is kept. -/
def served : Fs := (emptyDb.setFile home cacheName [0]).getD emptyDb

end Sample

end Db

end SxtEnterprise
