import SxtEnterprise.Audit
import SxtEnterprise.Service

/-!
# Every answer is a snapshot

`Ledger` says that the files hold, for every table, the batches that were posted to it, in order and under the schema
it was created with.  A request keeps this (`Ledger.step`) unless it is a post that stops midway, so it holds after
every serial run (`Ledger.run`), and with `requests_serialize` at every point of every interleaving.

* `queries_are_snapshots`: what a query is answered is about the posts that held the lock before it, for every table
  it references: the data its proof is made over, the commitment, and the number of rows.
* `no_insert_is_lost`: what was answered with `201` is in the data and the commitment from then on.
* `answers_verify`: the auditor can check every such answer.
* `concurrent_requests_are_consistent`: the first two, and serializability, of any number of requests in any state
  that requests have led to.
-/

namespace SxtEnterprise.Api

open NumberedNames Paths FaultyRun

variable {ρ κ σ ω : Type}

section Ledger

variable (L : Libs ρ κ σ) (P : ProofSystem ρ κ σ) (K : Codecs ρ ω) (db : Db) (setup : σ)

/-- The rows a request posted to the table in `p`, if it was answered with `201`. -/
def postedTo (p : Loc Name) (done : Request ω × Reply ω) : Option (List ω) :=
  match done with
  | (.insert table rows, .inserted (.ok _)) =>
    if (TableRef.fromStr table).map (fun r => (db.tableDir r).loc) = some p then some rows else none
  | _ => none

/-- The rows posted to the table in `p`, post by post. -/
def posted (p : Loc Name) (done : List (Request ω × Reply ω)) : List (List ω) := done.filterMap (postedTo db p)

/-- The batches of a log are what was posted, read under its schema.  Without a log nothing was posted. -/
def Posts (K : Codecs ρ ω) (posts : List (List ω)) : Option (TableLog ρ) → Prop
  | some e => List.Forall₂ (fun rows b => decodeBatch K e.schema rows = .ok b) posts e.batches
  | none => posts = []

/-- The schema of the table in `p`, if a request that was answered with `201` created it. -/
def createdAs (K : Codecs ρ ω) (p : Loc Name) (done : Request ω × Reply ω) : Option Schema :=
  match done with
  | (.create table columns, .created (.ok _)) =>
    match createBefore K table columns with
    | .ok (r, schema) => if (db.tableDir r).loc = p then some schema else none
    | _ => none
  | _ => none

/-- Every log holds what was posted to its table, under the schema the table was created with. -/
def Ledger (done : List (Request ω × Reply ω)) (fs : Fs) : Prop :=
  ∃ cat, Db.Inv L (fun _ => True) fs cat ∧ (∀ p, Posts K (posted db p done) (cat p)) ∧
    ∀ p, ∀ schema ∈ done.filterMap (createdAs db K p), ∃ e, cat p = some e ∧ e.schema = schema

/-- No listing loses entries, and a post that is not answered with `201` leaves the files as they were. -/
def Whole (q : Request ω × List Fate) (fs : Fs) : Prop :=
  Lossless q.2 ∧ ∀ table rows, q.1 = .insert table rows →
    (handle L P K db setup q.1 q.2 fs).1 = .inserted (.ok 201) ∨ (handle L P K db setup q.1 q.2 fs).2 = fs

/-- Of all these requests, one after the other. -/
def AllWhole (fs : Fs) : List (Request ω × List Fate) → Prop
  | [] => True
  | q :: requests => Whole L P K db setup q fs ∧ AllWhole (handle L P K db setup q.1 q.2 fs).2 requests

end Ledger

variable {L : Libs ρ κ σ} {P : ProofSystem ρ κ σ} {K : Codecs ρ ω} {db : Db} {setup : σ} {fs : Fs}

/-! ### What a handler leaves -/

theorem reader_list : (list db).Reader := Db.reader_tables.mapErr.bind fun _ => Prog.Reader.pure _

theorem reader_show {table : Name} : («show» L P K db table).Reader :=
  (Prog.Reader.ofOption _ _).bind fun r => (Db.reader_commitments L [r]).mapErr.bind fun _ => Prog.Reader.ofOutcome _

theorem reader_prove {sql : Name} : (Prove.prove L P db sql setup).Reader := by
  refine (Prog.Reader.ofOption _ _).bind fun statements => ?_
  rcases statements with _ | ⟨statement, _ | ⟨_, _⟩⟩
  · exact Prog.Reader.fail _
  · exact (Prog.Reader.ofOption _ _).bind fun refs => (Db.reader_data L refs).mapErr.bind fun _ =>
      Prog.Reader.ofOutcome _
  · exact Prog.Reader.fail _

theorem reader_query {sql : Name} : (query L P K db setup sql).Reader :=
  (Prog.Reader.ofOutcome _).bind fun refs =>
    (reader_prove.mapErr.bind fun _ => (Db.reader_commitments L refs).mapErr.bind fun _ => Prog.Reader.pure _).bind
      fun _ => Prog.Reader.ofOutcome _

section Leaves

variable {R : Fs → Fs → Prop}

theorem leaves_create (hR : Db.Respects L R) {table : Name} {columns : List ColumnJson} :
    (create L K db setup table columns).Leaves R := by
  refine (Prog.Reader.ofOutcome _).still.bind_leaves hR.refl fun t _ => ?_
  exact hR.createTable.mapErr.bind_still fun _ => (Prog.Reader.pure _).still

theorem leaves_insert (hR : Db.Respects L R) {table : Name} {rows : List ω} :
    (insert L K db setup table rows).Leaves R := by
  refine (Prog.Reader.ofOutcome _).still.bind_leaves hR.refl fun r hr => ?_
  obtain ⟨w, hr⟩ := hr
  have hparsed : r.Parsed := ⟨table, Outcome.ofOption_eq_ok.mp hr⟩
  have hlocked : (insertLocked L K db setup r rows).Leaves R := by
    refine (Db.reader_schema L r).mapErr.still.bind_leaves hR.refl fun schema _ => ?_
    refine (Prog.Reader.ofOutcome _).still.bind_leaves hR.refl fun batch _ => ?_
    exact (hR.insert hparsed).mapErr
  exact hlocked.bind_still fun _ => (Prog.Reader.pure _).still

/-- **Step: what every write leaves as it is, every request does.** -/
theorem leaves_handle (hR : Db.Respects L R) {request : Request ω} {fates : List Fate} (hl : Lossless fates) :
    R fs (handle L P K db setup request fates fs).2 := by
  have hread : ∀ fs', fs' = fs → R fs fs' := by
    rintro fs' rfl
    exact hR.refl _
  cases request with
  | health => exact hread _ rfl
  | list => exact hread _ (reader_list.state _)
  | «show» table => exact hread _ (reader_show.state _)
  | query sql => exact hread _ (reader_query.state _)
  | create table columns => exact leaves_create hR ⟨fs, fates, []⟩ hl
  | insert table rows => exact leaves_insert hR ⟨fs, fates, []⟩ hl

/-- **And so do many.** -/
theorem leaves_handleAll (hR : Db.Respects L R) {requests : List (Request ω × List Fate)}
    (hl : ∀ q ∈ requests, Lossless q.2) : R fs (handleAll L P K db setup fs requests).2 := by
  induction requests generalizing fs with
  | nil => exact hR.refl _
  | cons q requests ih =>
    exact hR.trans (leaves_handle hR (hl q List.mem_cons_self)) (ih fun q' hq' => hl q' (List.mem_cons_of_mem _ hq'))

end Leaves

/-- A create that got as far as the database leaves what the database's own create leaves, and ends as it ends. -/
theorem create_leaves {table : Name} {columns : List ColumnJson} {w : World Fs (Loc Name)} :
    ((∀ status, (create L K db setup table columns w).1 ≠ .ok status) ∧
      (create L K db setup table columns w).2 = w) ∨
    ∃ r schema, createBefore K table columns = .ok (r, schema) ∧
      (create L K db setup table columns w).2 = (db.createTable L r schema setup w).2 ∧
      ∀ status, (create L K db setup table columns w).1 = .ok status → (db.createTable L r schema setup w).1 = .ok () := by
  rcases hb : createBefore K table columns with ⟨r, schema⟩ | e | _ | _
  · refine Or.inr ⟨r, schema, rfl, ?_, fun status hok => ?_⟩
    · rw [create, hb]
      show ((createLocked L db setup r schema >>= fun _ => pure 201 : Io TableError ℕ) w).2 = _
      rw [Prog.andThen_run, createLocked, Prog.mapErr]
      rcases (db.createTable L r schema setup w).1 with u | e | _ | _
      all_goals rfl
    · obtain ⟨r', schema', hb', hrun, -⟩ := create_eq_ok.mp (Prod.ext hok rfl)
      obtain ⟨rfl, rfl⟩ := Prod.mk.inj (Outcome.ok.inj (hb.symm.trans hb'))
      rw [hrun]
  all_goals
    refine Or.inl ⟨fun status hok => ?_, by rw [create, hb]; rfl⟩
    obtain ⟨r', schema', hb', -⟩ := create_eq_ok.mp (Prod.ext hok rfl)
    simp [hb] at hb'

theorem createdAs_eq_some {table : Name} {columns : List ColumnJson} {reply : Reply ω} {p : Loc Name} {r : TableRef}
    {schema schema' : Schema} (hb : createBefore K table columns = .ok (r, schema))
    (h : createdAs db K p (.create table columns, reply) = some schema') :
    (db.tableDir r).loc = p ∧ schema = schema' := by
  rcases reply with _ | _ | (status | _ | _ | _) | _ | _ | _
  case created.ok =>
    simp only [createdAs, hb] at h
    split at h
    · rename_i hp
      exact ⟨hp, Option.some.inj h⟩
    · simp at h
  all_goals simp [createdAs] at h

/-! ### The ledger -/

variable {done : List (Request ω × Reply ω)} {q : Request ω × List Fate}

theorem allWhole_append {requests requests' : List (Request ω × List Fate)} :
    AllWhole L P K db setup fs (requests ++ requests') ↔
      AllWhole L P K db setup fs requests ∧
        AllWhole L P K db setup (handleAll L P K db setup fs requests).2 requests' := by
  induction requests generalizing fs with
  | nil => exact ⟨fun h => ⟨trivial, h⟩, fun h => h.2⟩
  | cons q requests ih =>
    show _ ∧ AllWhole L P K db setup _ (requests ++ requests') ↔ (_ ∧ _) ∧ _
    rw [ih, and_assoc]
    rfl

theorem AllWhole.lossless {requests : List (Request ω × List Fate)} (h : AllWhole L P K db setup fs requests) :
    ∀ q ∈ requests, Lossless q.2 := by
  induction requests generalizing fs with
  | nil => simp
  | cons q requests ih =>
    rw [List.forall_mem_cons]
    exact ⟨h.1.1, ih h.2⟩

theorem posted_concat (p : Loc Name) (d : Request ω × Reply ω) :
    posted db p (done ++ [d]) = posted db p done ++ (postedTo db p d).toList := by
  rw [posted, List.filterMap_append]
  rcases h : postedTo db p d with _ | rows
  · simp [posted, h]
  · simp [posted, h]

theorem Ledger.nil (hnone : ∀ p, Db.Unlogged L fs p) : Ledger L K db ([] : List (Request ω × Reply ω)) fs :=
  ⟨fun _ => none, ⟨by simp, fun p _ _ => hnone p⟩, fun _ => rfl, by simp⟩

/-- A request that posts nothing, and leaves every log alone or begins it. -/
theorem Ledger.skip {d : Request ω × Reply ω} {cat cat' : Loc Name → Option (TableLog ρ)} {fs' : Fs}
    (hposts : ∀ p, Posts K (posted db p done) (cat p))
    (hcreated : ∀ p, ∀ schema ∈ done.filterMap (createdAs db K p), ∃ e, cat p = some e ∧ e.schema = schema)
    (hinv : Db.Inv L (fun _ => True) fs' cat')
    (hsame : ∀ p, cat' p = cat p ∨ cat p = none ∧ ∃ schema, cat' p = some (TableLog.new schema))
    (hnone : ∀ p, postedTo db p d = none)
    (hnew : ∀ p schema, createdAs db K p d = some schema → cat' p = some (TableLog.new schema)) :
    Ledger L K db (done ++ [d]) fs' := by
  refine ⟨cat', hinv, fun p => ?_, fun p schema hschema => ?_⟩
  · rw [posted_concat, hnone p, Option.toList_none, List.append_nil]
    rcases hsame p with h | ⟨h, schema, h'⟩
    · rw [h]
      exact hposts p
    · have hempty := hposts p
      rw [h] at hempty
      rw [h', show posted db p done = [] from hempty]
      exact .nil
  · rw [List.filterMap_append, List.mem_append] at hschema
    rcases hschema with hbefore | hd
    · obtain ⟨e, he, hs⟩ := hcreated p schema hbefore
      rcases hsame p with h | ⟨h, -⟩
      · exact ⟨e, h.trans he, hs⟩
      · rw [h] at he
        simp at he
    · obtain ⟨d', hd', hs⟩ := List.mem_filterMap.mp hd
      obtain rfl := List.mem_singleton.mp hd'
      exact ⟨_, hnew p schema hs, rfl⟩

/-- **A post that was answered with `201`** is one batch more in its table's log. -/
theorem Ledger.insert (hL : L.Lawful) (h : Ledger L K db done fs) {table : Name} {rows : List ω} {fates : List Fate}
    {w' : World Fs (Loc Name)} {status : ℕ} (hl : Lossless fates)
    (hrun : Api.insert L K db setup table rows ⟨fs, fates, []⟩ = (.ok status, w')) :
    Ledger L K db (done ++ [(.insert table rows, .inserted (.ok status))]) w'.state := by
  obtain ⟨cat, hinv, hposts, hcreated⟩ := h
  obtain ⟨r, htable, hlocked, -⟩ := insert_eq_ok.mp hrun
  have hr : r.Parsed := ⟨table, htable⟩
  obtain ⟨schema, w₁, batch, hschema, hdecode, hinsert⟩ := insertLocked_eq_ok.mp hlocked
  have hreader : (Db.schema L db r).Reader := Db.reader_schema L r
  obtain rfl : w₁.state = fs := by
    have := hreader.state ⟨fs, fates, []⟩
    rwa [hschema] at this
  have hl₁ : Lossless w₁.fates := by
    have := hreader.lossless ⟨w₁.state, fates, []⟩ hl
    rwa [hschema] at this
  obtain ⟨e, hcat, -, hinv'⟩ := hinv.insert hL hr hl₁ trivial hinsert
  -- the schema the rows were read under is the log's
  obtain ⟨idx, hs⟩ := hinv.stored _ e trivial hcat
  have hread := hreader.honest _ _ hl (by rw [hschema])
  obtain rfl : schema = e.schema := (hs.firstSchema hL ((Db.eval_schema_ok hr).mp hread).2.2).2
  refine ⟨_, hinv', fun p => ?_, fun p schema hschema => ?_⟩
  · rw [posted_concat]
    by_cases hp : p = (db.tableDir r).loc
    · subst hp
      have hto : postedTo db (db.tableDir r).loc (.insert table rows, .inserted (.ok status)) = some rows := by
        rw [postedTo, htable]
        simp
      rw [hto, Function.update_self]
      have hbefore := hposts (db.tableDir r).loc
      rw [hcat] at hbefore
      exact List.rel_append hbefore (.cons hdecode .nil)
    · have hto : postedTo db p (.insert table rows, .inserted (.ok status)) = none := by
        rw [postedTo, htable]
        simpa using fun h => hp h.symm
      rw [hto, Function.update_of_ne hp, Option.toList_none, List.append_nil]
      exact hposts p
  · -- the schema stays
    have hnotCreate : createdAs db K p (.insert table rows, .inserted (.ok status)) = none := rfl
    rw [List.filterMap_append, List.filterMap_cons_none hnotCreate, List.filterMap_nil, List.append_nil] at hschema
    obtain ⟨e', he', hs'⟩ := hcreated p schema hschema
    by_cases hp : p = (db.tableDir r).loc
    · subst hp
      obtain rfl : e = e' := Option.some.inj (hcat.symm.trans he')
      exact ⟨_, Function.update_self .., hs'⟩
    · exact ⟨e', (Function.update_of_ne hp ..).trans he', hs'⟩

/-- **One request keeps the ledger.** -/
theorem Ledger.step (hL : L.Lawful) (h : Ledger L K db done fs) (hw : Whole L P K db setup q fs) :
    Ledger L K db (done ++ [(q.1, (handle L P K db setup q.1 q.2 fs).1)]) (handle L P K db setup q.1 q.2 fs).2 := by
  obtain ⟨request, fates⟩ := q
  obtain ⟨hl, hwhole⟩ := hw
  obtain ⟨cat, hinv, hposts, hcreated⟩ := id h
  have hread : ∀ reply fs', fs' = fs → (∀ p, postedTo db p (request, reply) = none) →
      (∀ p, createdAs db K p (request, reply) = none) → Ledger L K db (done ++ [(request, reply)]) fs' := by
    rintro reply _ rfl hnone hno
    exact Ledger.skip hposts hcreated hinv (fun _ => Or.inl rfl) hnone fun p schema h => by simp [hno p] at h
  cases request with
  | health => exact hread _ _ rfl (fun _ => rfl) fun _ => rfl
  | list => exact hread _ _ (reader_list.state _) (fun _ => rfl) fun _ => rfl
  | «show» table => exact hread _ _ (reader_show.state _) (fun _ => rfl) fun _ => rfl
  | query sql => exact hread _ _ (reader_query.state _) (fun _ => rfl) fun _ => rfl
  | create table columns =>
    show Ledger L K db (done ++ [(.create table columns, .created (create L K db setup table columns ⟨fs, fates, []⟩).1)])
      (create L K db setup table columns ⟨fs, fates, []⟩).2.state
    have hstopped : ∀ o : Outcome TableError ℕ, (∀ status, o ≠ .ok status) →
        ∀ p, createdAs db K p (.create table columns, .created o) = none := by
      intro o ho p
      rcases o with status | e | _ | _
      · exact absurd rfl (ho status)
      all_goals rfl
    rcases create_leaves (w := ⟨fs, fates, []⟩) with ⟨ho, hsame⟩ | ⟨r, schema, hbefore, hsame, hok⟩
    · exact hread _ _ (by rw [hsame]) (fun _ => rfl) (hstopped _ ho)
    · rw [hsame]
      have hr : r.Parsed := ⟨table, (createBefore_eq_ok.mp hbefore).1⟩
      rcases hinv.createTable (w := ⟨fs, fates, []⟩) hL hr hl rfl with ⟨ho, hinv'⟩ | ⟨hmiss, -, hinv'⟩
      · refine Ledger.skip hposts hcreated hinv' (fun _ => Or.inl rfl) (fun _ => rfl) fun p schema h => ?_
        rw [hstopped _ fun status h => ho (hok status h)] at h
        simp at h
      · refine Ledger.skip hposts hcreated hinv' (fun p => ?_) (fun _ => rfl) fun p schema' h => ?_
        · by_cases hp : p = (db.tableDir r).loc
          · rw [hp, Function.update_self]
            exact Or.inr ⟨hinv.none_of_missing trivial hmiss, schema, rfl⟩
          · exact Or.inl (Function.update_of_ne hp _ _)
        · obtain ⟨rfl, rfl⟩ := createdAs_eq_some hbefore h
          exact Function.update_self ..
  | insert table rows =>
    rcases hrun : Api.insert L K db setup table rows ⟨fs, fates, []⟩ with ⟨o, w'⟩
    have hhandle : handle L P K db setup (.insert table rows) fates fs = (.inserted o, w'.state) := by
      rw [handle, answer, hrun]
    have hstopped : (∀ status, o ≠ .ok status) →
        ∀ p, postedTo db p (.insert table rows, .inserted o) = none := by
      intro ho p
      rcases o with status | e | _ | _
      · exact absurd rfl (ho status)
      all_goals rfl
    have hdone := hwhole table rows rfl
    rw [hhandle] at hdone ⊢
    rcases o with status | e | _ | _
    · exact h.insert hL hl hrun
    all_goals exact hread _ _ (hdone.resolve_left (by simp)) (hstopped (by simp)) fun _ => rfl

/-- **And so do many.** -/
theorem Ledger.run (hL : L.Lawful) (h : Ledger L K db done fs) {requests : List (Request ω × List Fate)}
    (hw : AllWhole L P K db setup fs requests) :
    Ledger L K db (done ++ (handleAll L P K db setup fs requests).1) (handleAll L P K db setup fs requests).2 := by
  induction requests using List.reverseRecOn with
  | nil => simpa [handleAll] using h
  | append_singleton requests q ih =>
    obtain ⟨hinit, hlast, -⟩ := allWhole_append.mp hw
    rw [handleAll_append, ← List.append_assoc]
    exact (ih hinit).step hL hlast

/-- What is read of one table is what was posted to it: every batch of `posts`, and the commitment of them all. -/
structure Covers (L : Libs ρ κ σ) (K : Codecs ρ ω) (posts : List (List ω)) (e : TableLog ρ) (b : RecordBatch ρ)
    (k : κ) : Prop where
  batches : List.Forall₂ (fun rows b => decodeBatch K e.schema rows = .ok b) posts e.batches
  schema : b.schema = e.schema
  rows : b.rows.Perm e.content.rows
  inOrder : posts.length < 10 ^ 6 → b = e.content
  commitment : L.Commits k e.content
  numRows : L.numRows k = (e.batches.map RecordBatch.numRows).sum

theorem Covers.of_log (hL : L.Lawful) {posts : List (List ω)} {e : TableLog ρ} {k : κ}
    (hbatches : List.Forall₂ (fun rows b => decodeBatch K e.schema rows = .ok b) posts e.batches)
    (hc : L.Commits k e.content) (hbare : e.schema = [] → e.content.rows = []) :
    Covers L K posts e e.readBack k where
  batches := hbatches
  schema := rfl
  rows := e.readBack_perm
  inOrder hfew := by
    apply e.readBack_eq
    show e.batches.length + 1 ≤ 10 ^ 6
    rw [← hbatches.length_eq]
    exact hfew
  commitment := hc
  numRows := by
    obtain ⟨setup, hc⟩ := hc
    rw [hL.numRows_commits _ _ _ hc hbare, RecordBatch.numRows, TableLog.content, RecordBatch.concat, List.length_flatMap]
    rfl

/-- **Data and commitment of a table, both read in one state, cover what was posted by then.** -/
theorem Ledger.covers (hL : L.Lawful) (h : Ledger L K db done fs) {r : TableRef} {b : RecordBatch ρ} {k : κ}
    (hr : r.Parsed) (hb : (Db.tableData L db r).eval fs = .ok b) (hk : (Db.tableCommitment L db r).eval fs = .ok k) :
    ∃ e, Covers L K (posted db (db.tableDir r).loc done) e b k := by
  obtain ⟨cat, hinv, hposts, -⟩ := h
  obtain ⟨e, hcat, rfl, hc, hcol, -⟩ := read_of_inv hL hinv hr hb hk
  have hbatches := hposts (db.tableDir r).loc
  rw [hcat] at hbatches
  exact ⟨e, Covers.of_log hL hbatches hc fun hbare => absurd hbare hcol⟩

/-- What a query is answered with in `fs`, when `done` are the requests so far: its proof is made over the data, and it
reports the commitment and the number of rows, of all that was posted, for every table its statement references and for
no other. -/
def IsSnapshot (L : Libs ρ κ σ) (P : ProofSystem ρ κ σ) (K : Codecs ρ ω) (db : Db) (setup : σ) (fs : Fs)
    (done : List (Request ω × Reply ω)) (sql : Name) (response : QueryResult ω) : Prop :=
  ∃ statement tableRefs schemas data plan rest proof coerced batch, P.parseSql sql = some [statement] ∧
    P.tableRefs statement = some tableRefs ∧ response.tables.keys = tableRefs.map TableRef.toString ∧
    (∀ r ∈ tableRefs, ∃ b k e, Reports L P K db fs schemas data response.tables r b k ∧
      Covers L K (posted db (db.tableDir r).loc done) e b k) ∧
    P.plans [statement] schemas.lookup = .ok (plan :: rest) ∧ P.newProof plan data setup = .ok proof ∧
    Presents P K proof (P.resultFields plan) coerced batch response

/-- **An answer is a snapshot.** -/
theorem Ledger.isSnapshot (hL : L.Lawful) (hP : P.Lawful L) (h : Ledger L K db done fs) {fates : List Fate}
    (hl : Lossless fates) {sql : Name} {response : QueryResult ω} {w' : World Fs (Loc Name)}
    (hrun : query L P K db setup sql ⟨fs, fates, []⟩ = (.ok response, w')) :
    IsSnapshot L P K db setup fs done sql response := by
  obtain ⟨statement, tableRefs, schemas, data, plan, rest, proof, coerced, batch, hparse, hrefs, hreports, hkeys,
    hplans, hproof, hpresents⟩ := query_answer hP (w := ⟨fs, fates, []⟩) hl hrun
  refine ⟨statement, tableRefs, schemas, data, plan, rest, proof, coerced, batch, hparse, hrefs, hkeys, fun r hr => ?_,
    hplans, hproof, hpresents⟩
  obtain ⟨b, k, hreport⟩ := hreports r hr
  obtain ⟨e, hcovers⟩ := h.covers hL (hP.tableRefs_parsed _ _ hrefs r hr) hreport.reads hreport.commits
  exact ⟨b, k, e, hreport, hcovers⟩

/-- So with fewer than `10 ^ 6` posts to a table, every commitment is that of the data. -/
theorem Ledger.committed (hL : L.Lawful) (h : Ledger L K db done fs)
    (hfew : ∀ p, (posted db p done).length < 10 ^ 6) : Committed L db fs := by
  intro r b k hr hb hk
  obtain ⟨e, hcovers⟩ := h.covers hL hr hb hk
  rw [hcovers.inOrder (hfew _)]
  exact hcovers.commitment

/-- What was posted to a table is in its log, and both can be read. -/
theorem Ledger.keeps (hL : L.Lawful) (h : Ledger L K db done fs) {r : TableRef} (hr : r.Parsed)
    (hnul : (db.tableDir r).hasNul = false) (hsome : posted db (db.tableDir r).loc done ≠ []) :
    ∃ e k, (Db.tableCommitment L db r).eval fs = .ok k ∧
      Covers L K (posted db (db.tableDir r).loc done) e e.readBack k ∧
      (Db.Tidy fs (db.tableDir r).loc → (Db.tableData L db r).eval fs = .ok e.readBack) := by
  obtain ⟨cat, hinv, hposts, -⟩ := h
  have hbatches := hposts (db.tableDir r).loc
  rcases hcat : cat (db.tableDir r).loc with _ | e
  · rw [hcat] at hbatches
    exact absurd hbatches hsome
  · rw [hcat] at hbatches
    obtain ⟨idx, hs⟩ := hinv.stored _ e trivial hcat
    obtain ⟨k, hk, hc⟩ := hs.commitment
    have hpresent := Db.present_of_dir hr hnul hs.isDir
    have hcol : e.schema ≠ [] := fun hbare => hsome (by
      have hnone := hs.bare hbare
      rw [Posts, hnone, List.forall₂_nil_right_iff] at hbatches
      exact hbatches)
    exact ⟨e, k, (Db.eval_tableCommitment_ok hr).mpr ⟨hpresent, hk.at hL⟩,
      Covers.of_log hL hbatches hc hs.rows_of_bare, hs.eval_tableData hL hr hnul hcol⟩

/-- **The auditor can check `response`** against the commitments of `fs`, whatever else has changed since: `verify`
prints the table that the response's rows were made of. -/
def Auditable (L : Libs ρ κ σ) (P : ProofSystem ρ κ σ) (K : Codecs ρ ω) (db : Db) (sql : Name) (fs : Fs)
    (response : QueryResult ω) : Prop :=
  ∀ fs', (∀ r k, r.Parsed → (Db.tableCommitment L db r).eval fs = .ok k →
      (Db.tableCommitment L db r).eval fs' = .ok k) →
    ∀ responsePath : Path, responsePath.hasNul = false →
      node fs' responsePath = some (.file (K.writeResponse response)) →
      ∀ order : List (Name × QueriedTable) → List (Name × QueriedTable), (∀ tables, (order tables).Perm tables) →
        ∀ home, ∃ proof batch text, Cli.decodeProof P K response.proof = .ok proof ∧
          jsonRows K batch = .ok response.rows ∧ K.prettyFormat batch = some text ∧
          (Cli.verifyCommand L P K order home sql responsePath (some (Path.ofLoc db.dir))).eval fs' = .ok text

/-- **With fewer than `10 ^ 6` posts to each table, the auditor can check an answer.** -/
theorem Ledger.auditable (hL : L.Lawful) (hP : P.Lawful L) (hK : K.Lawful P) (h : Ledger L K db done fs)
    (hfew : ∀ p, (posted db p done).length < 10 ^ 6) {fates : List Fate} (hl : Lossless fates) {sql : Name}
    {response : QueryResult ω} {w' : World Fs (Loc Name)}
    (hrun : query L P K db setup sql ⟨fs, fates, []⟩ = (.ok response, w')) :
    Auditable L P K db sql fs response := by
  intro fs' hkept responsePath hnul hfile order hperm home
  obtain ⟨parsed, commitments, proof, batch, text, hparsed, hverifies, hrows, htext⟩ :=
    accepts_answer (w := ⟨fs, fates, []⟩) hL hP hK hl (h.committed hL hfew) hrun (pins_of_kept hkept) hnul hfile hperm
      home
  obtain ⟨parsed', hparsed', hproof, -⟩ := hK.response response
  obtain rfl := Option.some.inj (hparsed.symm.trans hparsed')
  exact ⟨proof, batch, text, hproof ▸ hverifies.decodes, hrows, hverifies.prints, htext⟩

/-! ### Any number of requests at once -/

section Concurrent

variable {ι : Type} [DecidableEq ι] {requests : ι → Request ω × List Fate} {schedule : List ι} {i : ι}

omit [DecidableEq ι] in
/-- A request that is answered without the lock did not succeed, unless it only asked for the process's health. -/
theorem not_succeeded_of_inl {request : Request ω} {fates : List Fate} {reply : Reply ω} (hne : request ≠ .health)
    (h : (staged L P K db setup request fates).before = .inl reply) : reply.succeeded = false := by
  cases request with
  | health => exact absurd rfl hne
  | list | create | «show» | insert | query =>
    obtain ⟨o, rfl, ho⟩ := stage_before_inl h
    rw [Bool.eq_false_iff]
    intro hok
    obtain ⟨a, ha⟩ := Outcome.isOk_iff.mp hok
    exact ho a ha

/-- **A request that succeeded held the lock**, and ran in the files left by those before it. -/
theorem held {reply : Reply ω} (hne : (requests i).1 ≠ .health)
    (h : (serviceRun L P K db setup requests fs schedule).phase i = .replied reply) (hs : reply.succeeded = true) :
    ∃ pre post, (serviceRun L P K db setup requests fs schedule).order = pre ++ i :: post ∧
      reply = (handle L P K db setup (requests i).1 (requests i).2
        (handleAll L P K db setup fs (pre.map requests)).2).1 := by
  rcases serviceRun_reply h with ⟨hnot, -⟩ | hheld
  · have hun := serviceRun_linearized.unserved i hnot
    rw [h] at hun
    cases hun with
    | refused hb =>
      rw [not_succeeded_of_inl hne hb] at hs
      simp at hs
  · exact hheld

/-- A post that succeeded was answered with `201`. -/
theorem inserted_of_succeeded {table : Name} {rows : List ω} {fates : List Fate}
    (h : (handle L P K db setup (.insert table rows) fates fs).1.succeeded = true) :
    (handle L P K db setup (.insert table rows) fates fs).1 = .inserted (.ok 201) := by
  obtain ⟨status, hok⟩ := Outcome.isOk_iff.mp h
  obtain ⟨-, -, -, rfl⟩ := insert_eq_ok.mp (Prod.ext hok rfl)
  exact congrArg Reply.inserted hok

theorem allWhole_of_succeeded {all : List (Request ω × List Fate)} (hcalm : ∀ q ∈ all, Lossless q.2)
    (h : ∀ d ∈ (handleAll L P K db setup fs all).1, d.2.succeeded = true) : AllWhole L P K db setup fs all := by
  induction all generalizing fs with
  | nil => trivial
  | cons q all ih =>
    have hfirst : (handle L P K db setup q.1 q.2 fs).1.succeeded = true := h (_, _) List.mem_cons_self
    refine ⟨⟨hcalm q List.mem_cons_self, fun table rows hq => Or.inl ?_⟩, ih ?_ ?_⟩
    · rw [hq] at hfirst ⊢
      exact inserted_of_succeeded hfirst
    · exact fun q' hq' => hcalm q' (List.mem_cons_of_mem _ hq')
    · exact fun d hd => h d (List.mem_cons_of_mem _ hd)

/-- A query that was answered with a result. -/
theorem answered_held {sql : Name} {response : QueryResult ω} (hq : (requests i).1 = .query sql)
    (h : (serviceRun L P K db setup requests fs schedule).phase i = .replied (.answered (.ok response))) :
    ∃ pre post w', (serviceRun L P K db setup requests fs schedule).order = pre ++ i :: post ∧
      query L P K db setup sql ⟨(handleAll L P K db setup fs (pre.map requests)).2, (requests i).2, []⟩ =
        (.ok response, w') := by
  obtain ⟨pre, post, horder, hr⟩ := held (by simp [hq]) h rfl
  rw [hq] at hr
  exact ⟨pre, post, _, horder, Prod.ext (Reply.answered.inj hr).symm rfl⟩

/-- A post that was answered with `201`. -/
theorem inserted_held {table : Name} {rows : List ω} {status : ℕ} (hq : (requests i).1 = .insert table rows)
    (h : (serviceRun L P K db setup requests fs schedule).phase i = .replied (.inserted (.ok status))) :
    ∃ pre post w', (serviceRun L P K db setup requests fs schedule).order = pre ++ i :: post ∧
      insert L K db setup table rows ⟨(handleAll L P K db setup fs (pre.map requests)).2, (requests i).2, []⟩ =
        (.ok status, w') := by
  obtain ⟨pre, post, horder, hr⟩ := held (by simp [hq]) h rfl
  rw [hq] at hr
  exact ⟨pre, post, _, horder, Prod.ext (Reply.inserted.inj hr).symm rfl⟩

omit [DecidableEq ι] in
theorem AllWhole.of_prefix {order order' : List ι} (h : AllWhole L P K db setup fs (order'.map requests))
    (hpre : order <+: order') : AllWhole L P K db setup fs (order.map requests) := by
  obtain ⟨rest, rfl⟩ := hpre
  rw [List.map_append] at h
  exact (allWhole_append.mp h).1

omit [DecidableEq ι] in
/-- The requests before any of them. -/
theorem AllWhole.before {order pre post : List ι} (h : AllWhole L P K db setup fs (order.map requests))
    (horder : order = pre ++ i :: post) : AllWhole L P K db setup fs (pre.map requests) ∧
      Whole L P K db setup (requests i) (handleAll L P K db setup fs (pre.map requests)).2 := by
  subst horder
  rw [List.map_append, List.map_cons] at h
  obtain ⟨hpre, hi, -⟩ := allWhole_append.mp h
  exact ⟨hpre, hi⟩

/-- An answer is a snapshot of what the requests before the run had posted, and those that held the lock before it. -/
theorem Ledger.answered (hL : L.Lawful) (hP : P.Lawful L) (h : Ledger L K db done fs)
    (hwhole : AllWhole L P K db setup fs ((serviceRun L P K db setup requests fs schedule).order.map requests))
    {sql : Name} {response : QueryResult ω} (hq : (requests i).1 = .query sql)
    (hreply : (serviceRun L P K db setup requests fs schedule).phase i = .replied (.answered (.ok response))) :
    ∃ pre post, (serviceRun L P K db setup requests fs schedule).order = pre ++ i :: post ∧
      IsSnapshot L P K db setup (handleAll L P K db setup fs (pre.map requests)).2
        (done ++ (handleAll L P K db setup fs (pre.map requests)).1) sql response := by
  obtain ⟨pre, post, w', horder, hrun⟩ := answered_held hq hreply
  obtain ⟨hbefore, hl, -⟩ := hwhole.before horder
  exact ⟨pre, post, horder, (h.run hL hbefore).isSnapshot hL hP hl hrun⟩

/-- The rows of a post are one batch of the log of `r`'s table: `done` are the requests before it, `all` those there
have been when the files are `fs`. -/
def IsKept (L : Libs ρ κ σ) (K : Codecs ρ ω) (db : Db) (done all : List (Request ω × Reply ω)) (r : TableRef)
    (rows : List ω) (fs : Fs) : Prop :=
  ∃ later e k, posted db (db.tableDir r).loc all = posted db (db.tableDir r).loc done ++ rows :: later ∧
    Covers L K (posted db (db.tableDir r).loc done ++ rows :: later) e e.readBack k ∧
    (Db.tableCommitment L db r).eval fs = .ok k ∧
    (Db.Tidy fs (db.tableDir r).loc → (Db.tableData L db r).eval fs = .ok e.readBack)

/-- A post that was answered with `201` is in the log for good. -/
theorem Ledger.inserted (hL : L.Lawful) (h : Ledger L K db done fs)
    (hwhole : AllWhole L P K db setup fs ((serviceRun L P K db setup requests fs schedule).order.map requests))
    {table : Name} {rows : List ω} {status : ℕ} (hq : (requests i).1 = .insert table rows)
    (hreply : (serviceRun L P K db setup requests fs schedule).phase i = .replied (.inserted (.ok status))) :
    ∃ r pre post, TableRef.fromStr table = some r ∧
      (serviceRun L P K db setup requests fs schedule).order = pre ++ i :: post ∧
      IsKept L K db (done ++ (handleAll L P K db setup fs (pre.map requests)).1)
        (done ++ (handleAll L P K db setup fs
          ((serviceRun L P K db setup requests fs schedule).order.map requests)).1) r rows
        (serviceRun L P K db setup requests fs schedule).shared := by
  obtain ⟨pre, post, w', horder, hrun⟩ := inserted_held hq hreply
  obtain ⟨-, hl, -⟩ := hwhole.before horder
  obtain ⟨r, htable, hlocked, -⟩ := insert_eq_ok.mp hrun
  have hr : r.Parsed := ⟨table, htable⟩
  -- the table was there when the rows came
  obtain ⟨schema, w₁, batch, hschema, -, -⟩ := insertLocked_eq_ok.mp hlocked
  have hreader : (Db.schema L db r).Reader := Db.reader_schema L r
  have hread := hreader.honest _ _ hl (by rw [hschema])
  have hnul := Db.noNul_of_present ((Db.eval_schema_ok hr).mp hread).1
  -- and its batch follows those before it
  obtain ⟨later, hposted⟩ : ∃ later, posted db (db.tableDir r).loc (done ++
      (handleAll L P K db setup fs ((serviceRun L P K db setup requests fs schedule).order.map requests)).1) =
        posted db (db.tableDir r).loc (done ++ (handleAll L P K db setup fs (pre.map requests)).1) ++ rows :: later := by
    have hto : postedTo db (db.tableDir r).loc ((requests i).1, (handle L P K db setup (requests i).1 (requests i).2
        (handleAll L P K db setup fs (pre.map requests)).2).1) = some rows := by
      rw [hq, handle, answer, hrun, postedTo, htable]
      simp
    rw [horder, List.map_append, List.map_cons, handleAll_append]
    show ∃ later, List.filterMap _ (_ ++ (_ ++ ((requests i).1, _) :: _)) = _
    rw [← List.append_assoc, List.filterMap_append, List.filterMap_cons_some hto]
    exact ⟨_, rfl⟩
  have hledger := h.run hL hwhole
  rw [← serviceRun_shared] at hledger
  obtain ⟨e, k, hk, hcovers, hdata⟩ := hledger.keeps hL hr hnul (by rw [hposted]; simp)
  exact ⟨r, pre, post, htable, horder, later, e, k, hposted, hposted ▸ hcovers, hk, hdata⟩

/-- **Every answer is a snapshot.**  However the requests interleave, a query's answer is about exactly the posts that
held the lock before it. -/
theorem queries_are_snapshots (hL : L.Lawful) (hP : P.Lawful L) (hnone : ∀ p, Db.Unlogged L fs p)
    (hwhole : AllWhole L P K db setup fs ((serviceRun L P K db setup requests fs schedule).order.map requests))
    {sql : Name} {response : QueryResult ω} (hq : (requests i).1 = .query sql)
    (h : (serviceRun L P K db setup requests fs schedule).phase i = .replied (.answered (.ok response))) :
    ∃ pre post, (serviceRun L P K db setup requests fs schedule).order = pre ++ i :: post ∧
      IsSnapshot L P K db setup (handleAll L P K db setup fs (pre.map requests)).2
        (handleAll L P K db setup fs (pre.map requests)).1 sql response := by
  exact (Ledger.nil hnone).answered hL hP hwhole hq h

/-- **No insert is lost.**  However the requests interleave, and whatever came after it, the rows of a post that was
answered with `201` are one batch of its table's log, after those of the posts that held the lock before it and before
those of the posts that held it later; the commitment is that of the whole log, and so is the data, unless a directory
in the table's own is called like a batch. -/
theorem no_insert_is_lost (hL : L.Lawful) (hnone : ∀ p, Db.Unlogged L fs p)
    (hwhole : AllWhole L P K db setup fs ((serviceRun L P K db setup requests fs schedule).order.map requests))
    {table : Name} {rows : List ω} {status : ℕ} (hq : (requests i).1 = .insert table rows)
    (h : (serviceRun L P K db setup requests fs schedule).phase i = .replied (.inserted (.ok status))) :
    ∃ r pre post, TableRef.fromStr table = some r ∧
      (serviceRun L P K db setup requests fs schedule).order = pre ++ i :: post ∧ ∃ later e k,
      posted db (db.tableDir r).loc
          (handleAll L P K db setup fs ((serviceRun L P K db setup requests fs schedule).order.map requests)).1 =
        posted db (db.tableDir r).loc (handleAll L P K db setup fs (pre.map requests)).1 ++ rows :: later ∧
      Covers L K (posted db (db.tableDir r).loc (handleAll L P K db setup fs (pre.map requests)).1 ++ rows :: later) e
        e.readBack k ∧
      (Db.tableCommitment L db r).eval (serviceRun L P K db setup requests fs schedule).shared = .ok k ∧
      (Db.Tidy (serviceRun L P K db setup requests fs schedule).shared (db.tableDir r).loc →
        (Db.tableData L db r).eval (serviceRun L P K db setup requests fs schedule).shared = .ok e.readBack) := by
  exact (Ledger.nil hnone).inserted hL hwhole hq h

/-- **Concurrent requests are consistent**, from any files that hold what the requests so far have posted: each query is
answered with a snapshot, each post that is answered with `201` is kept, and each reply is the one the request would be
given if those that held the lock had come one after the other. -/
theorem concurrent_requests_are_consistent (hL : L.Lawful) (hP : P.Lawful L) (h : Ledger L K db done fs)
    (requests : ι → Request ω × List Fate) (schedule : List ι)
    (hwhole : AllWhole L P K db setup fs ((serviceRun L P K db setup requests fs schedule).order.map requests)) :
    let run := serviceRun L P K db setup requests fs schedule
    let serial := fun order : List ι => handleAll L P K db setup fs (order.map requests)
    (∀ i sql response, (requests i).1 = .query sql → run.phase i = .replied (.answered (.ok response)) →
      ∃ pre post, run.order = pre ++ i :: post ∧
        IsSnapshot L P K db setup (serial pre).2 (done ++ (serial pre).1) sql response) ∧
    (∀ i table rows status, (requests i).1 = .insert table rows → run.phase i = .replied (.inserted (.ok status)) →
      ∃ r pre post, TableRef.fromStr table = some r ∧ run.order = pre ++ i :: post ∧
        IsKept L K db (done ++ (serial pre).1) (done ++ (serial run.order).1) r rows run.shared) ∧
    run.order.Nodup ∧ run.shared = (serial run.order).2 ∧
    ∀ i reply, run.phase i = .replied reply →
      (i ∉ run.order ∧ ∀ fs', handle L P K db setup (requests i).1 (requests i).2 fs' = (reply, fs')) ∨
        ∃ pre post, run.order = pre ++ i :: post ∧
          reply = (handle L P K db setup (requests i).1 (requests i).2 (serial pre).2).1 := by
  refine ⟨fun i sql response hq hreply => ?_, fun i table rows status hq hreply => ?_, serviceRun_linearized.nodup,
    serviceRun_shared, fun i reply hreply => serviceRun_reply hreply⟩
  · exact h.answered hL hP hwhole hq hreply
  · exact h.inserted hL hwhole hq hreply

/-- **Every answer verifies.**  However the requests interleave, the auditor can check a query's response against the
commitments as they were when the query held the lock, and what is verified is the table its rows were made of. -/
theorem answers_verify (hL : L.Lawful) (hP : P.Lawful L) (hK : K.Lawful P) (hnone : ∀ p, Db.Unlogged L fs p)
    (hwhole : AllWhole L P K db setup fs ((serviceRun L P K db setup requests fs schedule).order.map requests))
    (hfew : ∀ p, (posted db p (handleAll L P K db setup fs
      ((serviceRun L P K db setup requests fs schedule).order.map requests)).1).length < 10 ^ 6)
    {sql : Name} {response : QueryResult ω} (hq : (requests i).1 = .query sql)
    (h : (serviceRun L P K db setup requests fs schedule).phase i = .replied (.answered (.ok response))) :
    ∃ pre post, (serviceRun L P K db setup requests fs schedule).order = pre ++ i :: post ∧
      Auditable L P K db sql (handleAll L P K db setup fs (pre.map requests)).2 response := by
  obtain ⟨pre, post, w', horder, hrun⟩ := answered_held hq h
  obtain ⟨hbefore, hl, -⟩ := hwhole.before horder
  refine ⟨pre, post, horder, ((Ledger.nil hnone).run hL hbefore).auditable hL hP hK (fun p => ?_) hl hrun⟩
  apply lt_of_le_of_lt ?_ (hfew p)
  rw [horder, List.map_append, handleAll_append]
  show _ ≤ (List.filterMap _ (_ ++ _)).length
  rw [List.filterMap_append, List.length_append]
  exact Nat.le_add_right _ _

end Concurrent

section Sample

open SampleLibs (ids home people)
open SampleService

/-- A table is created, two clients post to it, and one queries it. -/
def clients : ℕ → Request UInt8 × List Fate
  | 0 => (.create people.toString [⟨"id".toList, "BIGINT".toList⟩], [])
  | 1 => (.insert people.toString [1, 2], [])
  | 2 => (.insert people.toString [3], [])
  | _ => (.query people.toString, [])

/-- The query is the first to come and takes the lock between the two posts, of which the second has it first. -/
def clientSchedule : List ℕ := [3, 0, 0, 1, 2, 2, 0, 3, 1, 3, 1, 2]

def clientRun : GlobalLock.State Fs (Reply UInt8) fun i => (clients i).1.Taken libs proofs :=
  serviceRun libs proofs codecs ⟨home⟩ 9 clients Db.sampleStart clientSchedule

/-- What the run comes to: who held the lock, that all went well, what was answered, and what had been posted. -/
theorem clientRun_is : clientRun.order = [0, 2, 3, 1] ∧
    (∀ d ∈ (handleAll libs proofs codecs ⟨home⟩ 9 Db.sampleStart ([0, 2, 3, 1].map clients)).1,
      d.2.succeeded = true) ∧
    (clientRun.phase 3).reply = some (.answered (.ok (answerFor ⟨ids, [3]⟩))) ∧
    (clientRun.phase 1).reply = some (.inserted (.ok 201)) ∧
    posted ⟨home⟩ ((⟨home⟩ : Db).tableDir people).loc
      (handleAll libs proofs codecs ⟨home⟩ 9 Db.sampleStart ([0, 2].map clients)).1 = [[3]] ∧
    posted ⟨home⟩ ((⟨home⟩ : Db).tableDir people).loc
      (handleAll libs proofs codecs ⟨home⟩ 9 Db.sampleStart ([0, 2, 3, 1].map clients)).1 = [[3], [1, 2]] := by
  decide +kernel

theorem clientRun_order : clientRun.order = [0, 2, 3, 1] := clientRun_is.1

theorem clients_calm : ∀ i, Lossless (clients i).2
  | 0 | 1 | 2 | _ + 3 => Lossless.nil

theorem allWhole_clientRun : AllWhole libs proofs codecs ⟨home⟩ 9 Db.sampleStart (clientRun.order.map clients) := by
  rw [clientRun_order]
  refine allWhole_of_succeeded ?_ clientRun_is.2.1
  intro q hq
  obtain ⟨i, -, rfl⟩ := List.mem_map.mp hq
  exact clients_calm i

theorem clientRun_answered : clientRun.phase 3 = .replied (.answered (.ok (answerFor ⟨ids, [3]⟩))) :=
  GlobalLock.Phase.reply_eq_some.mp clientRun_is.2.2.1

theorem clientRun_inserted : clientRun.phase 1 = .replied (.inserted (.ok 201)) :=
  GlobalLock.Phase.reply_eq_some.mp clientRun_is.2.2.2.1

/-- Only the create and the second client's post came before the query. -/
theorem before_query {pre post : List ℕ} (h : clientRun.order = pre ++ 3 :: post) : pre = [0, 2] := by
  rw [clientRun_order] at h
  rcases pre with _ | ⟨a, _ | ⟨b, _ | ⟨c, _ | ⟨d, pre⟩⟩⟩⟩
  all_goals simp at h
  rw [h.1, h.2.1]

/-- A snapshot of the one table there is. -/
theorem covers_of_isSnapshot {fs : Fs} {done : List (Request UInt8 × Reply UInt8)} {response : QueryResult UInt8}
    (h : IsSnapshot libs proofs codecs ⟨home⟩ 9 fs done people.toString response) :
    ∃ e b k, Covers libs codecs (posted ⟨home⟩ ((⟨home⟩ : Db).tableDir people).loc done) e b k := by
  obtain ⟨statement, tableRefs, _, _, -, -, -, -, -, hparse, hrefs, -, hcovers, -⟩ := h
  have hstatement : [people] = [statement] := Option.some.inj hparse
  obtain rfl : people = statement := (List.cons.inj hstatement).1
  obtain rfl : [people] = tableRefs := Option.some.inj hrefs
  obtain ⟨b, k, e, -, hcovers⟩ := hcovers people (List.mem_singleton.mpr rfl)
  exact ⟨e, b, k, hcovers⟩

theorem queries_are_snapshots_sample : ∃ e b k, Covers libs codecs [[3]] e b k := by
  obtain ⟨pre, post, horder, hsnapshot⟩ :=
    queries_are_snapshots libs_lawful proofs_lawful unlogged_sampleStart allWhole_clientRun rfl clientRun_answered
  obtain rfl := before_query horder
  exact clientRun_is.2.2.2.2.1 ▸ covers_of_isSnapshot hsnapshot

theorem posted_clientRun : posted ⟨home⟩ ((⟨home⟩ : Db).tableDir people).loc
    (handleAll libs proofs codecs ⟨home⟩ 9 Db.sampleStart (clientRun.order.map clients)).1 = [[3], [1, 2]] := by
  rw [clientRun_order]
  exact clientRun_is.2.2.2.2.2

/-- The first client's post came after the query, and is still there. -/
theorem no_insert_is_lost_sample : ∃ e k, Covers libs codecs [[3], [1, 2]] e e.readBack k ∧
    (Db.tableCommitment libs ⟨home⟩ people).eval clientRun.shared = .ok k := by
  obtain ⟨r, pre, post, htable, -, later, e, k, hposted, hcovers, hk, -⟩ :=
    no_insert_is_lost libs_lawful unlogged_sampleStart allWhole_clientRun rfl clientRun_inserted
  obtain rfl : people = r := Option.some.inj htable
  rw [← hposted] at hcovers
  exact ⟨e, k, posted_clientRun ▸ hcovers, hk⟩

theorem answers_verify_sample : Auditable libs proofs codecs ⟨home⟩ people.toString
    (handleAll libs proofs codecs ⟨home⟩ 9 Db.sampleStart ([0, 2].map clients)).2 (answerFor ⟨ids, [3]⟩) := by
  have hfew : ∀ p, (posted ⟨home⟩ p
      (handleAll libs proofs codecs ⟨home⟩ 9 Db.sampleStart (clientRun.order.map clients)).1).length < 10 ^ 6 := by
    intro p
    apply lt_of_le_of_lt (List.length_filterMap_le _ _)
    rw [clientRun_order]
    exact (by decide : 4 < 10 ^ 6)
  obtain ⟨pre, post, horder, haudit⟩ := answers_verify libs_lawful proofs_lawful codecs_lawful unlogged_sampleStart
    allWhole_clientRun hfew rfl clientRun_answered
  exact before_query horder ▸ haudit

/-- A table that was created and posted to before two more clients come. -/
def earlier : List (Request UInt8 × Reply UInt8) × Fs :=
  handleAll libs proofs codecs ⟨home⟩ 9 Db.sampleStart ([0, 1].map clients)

/-- The query is again the first to come, and the post takes the lock before it. -/
def laterRun : GlobalLock.State Fs (Reply UInt8) fun i => (clients i).1.Taken libs proofs :=
  serviceRun libs proofs codecs ⟨home⟩ 9 clients earlier.2 [3, 2, 2, 3, 3, 2]

/-- What this run comes to. -/
theorem laterRun_is : laterRun.order = [2, 3] ∧ (∀ d ∈ earlier.1, d.2.succeeded = true) ∧
    (∀ d ∈ (handleAll libs proofs codecs ⟨home⟩ 9 earlier.2 ([2, 3].map clients)).1, d.2.succeeded = true) ∧
    (laterRun.phase 3).reply = some (.answered (.ok (answerFor ⟨ids, [1, 2, 3]⟩))) ∧
    (laterRun.phase 2).reply = some (.inserted (.ok 201)) ∧
    posted ⟨home⟩ ((⟨home⟩ : Db).tableDir people).loc
      (earlier.1 ++ (handleAll libs proofs codecs ⟨home⟩ 9 earlier.2 ([2].map clients)).1) = [[1, 2], [3]] := by
  decide +kernel

theorem ledger_earlier : Ledger libs codecs ⟨home⟩ earlier.1 earlier.2 := by
  refine (Ledger.nil unlogged_sampleStart).run libs_lawful (allWhole_of_succeeded ?_ laterRun_is.2.1)
  exact List.forall_mem_map.mpr fun i _ => clients_calm i

theorem concurrent_requests_are_consistent_sample : (∃ e b k, Covers libs codecs [[1, 2], [3]] e b k) ∧
    ∃ done all, IsKept libs codecs ⟨home⟩ done all people [3] laterRun.shared := by
  have hwhole : AllWhole libs proofs codecs ⟨home⟩ 9 earlier.2 (laterRun.order.map clients) := by
    rw [laterRun_is.1]
    exact allWhole_of_succeeded (List.forall_mem_map.mpr fun i _ => clients_calm i) laterRun_is.2.2.1
  obtain ⟨hqueries, hposts, -⟩ := concurrent_requests_are_consistent libs_lawful proofs_lawful ledger_earlier clients
    [3, 2, 2, 3, 3, 2] hwhole
  constructor
  · obtain ⟨pre, post, horder, hsnapshot⟩ :=
      hqueries 3 _ _ rfl (GlobalLock.Phase.reply_eq_some.mp laterRun_is.2.2.2.1)
    have hpre : pre = [2] := by
      have hsplit : [2, 3] = pre ++ 3 :: post := laterRun_is.1.symm.trans horder
      rcases pre with _ | ⟨a, _ | ⟨b, pre⟩⟩
      all_goals simp at hsplit
      rw [hsplit.1]
    subst hpre
    exact laterRun_is.2.2.2.2.2 ▸ covers_of_isSnapshot hsnapshot
  · obtain ⟨r, pre, post, htable, -, hkept⟩ :=
      hposts 2 _ _ _ rfl (GlobalLock.Phase.reply_eq_some.mp laterRun_is.2.2.2.2.1)
    obtain rfl : people = r := Option.some.inj htable
    exact ⟨_, _, hkept⟩

end Sample

end SxtEnterprise.Api
