import SxtEnterprise.SelfDescription
import SxtEnterprise.Snapshots

/-!
# What the service says of its tables

A query's answer and a table's description both report a number of rows, taken from the commitment.  Where a decoder
takes all the rows it is given (`DecodesAll`), this is the number of rows posted by the requests that held the lock
before (`IsSnapshot.numRows`), and since the lock order only grows, what was answered once stays so.

* `answers_never_go_back`: a query that had not held the lock when others were answered reports at least their rows.
* `descriptions_are_snapshots`: a table that was created is from then on described as it was declared, with the rows
  posted by then.
* `lists_are_snapshots`: and listed, once, among the directories that have the name of a table, since no request
  removes a directory (`respects_keepsDirs`).
-/

namespace SxtEnterprise.Api

open NumberedNames Paths FaultyRun

variable {ρ κ σ ω : Type}

/-- How many rows were posted to the table in `p`. -/
def rowsPosted (db : Db) (p : Loc Name) (done : List (Request ω × Reply ω)) : ℕ :=
  ((posted db p done).map List.length).sum

variable {L : Libs ρ κ σ} {P : ProofSystem ρ κ σ} {K : Codecs ρ ω} {db : Db} {setup : σ} {fs : Fs}
  {done : List (Request ω × Reply ω)}

theorem rowsPosted_append (p : Loc Name) (done' : List (Request ω × Reply ω)) :
    rowsPosted db p (done ++ done') = rowsPosted db p done + rowsPosted db p done' := by
  rw [rowsPosted, posted, List.filterMap_append, List.map_append, List.sum_append]
  rfl

/-! ### Rows are counted -/

/-- Batches decoded of posts have the rows of the posts. -/
theorem sum_numRows (hK : DecodesAll K) {schema : Schema} {posts : List (List ω)} {batches : List (RecordBatch ρ)}
    (h : List.Forall₂ (fun rows b => decodeBatch K schema rows = .ok b) posts batches) :
    (batches.map RecordBatch.numRows).sum = (posts.map List.length).sum := by
  induction h with
  | nil => rfl
  | cons hd _ ih =>
    obtain ⟨decoded, hdecoded, rfl⟩ := decodeBatch_eq_ok.mp hd
    rw [List.map_cons, List.map_cons, List.sum_cons, List.sum_cons, ih, hK _ _ _ hdecoded]

/-- **The commitment of a table counts the rows posted to it.** -/
theorem Covers.numRows_eq (hK : DecodesAll K) {posts : List (List ω)} {e : TableLog ρ} {b : RecordBatch ρ} {k : κ}
    (h : Covers L K posts e b k) : L.numRows k = (posts.map List.length).sum :=
  h.numRows.trans (sum_numRows hK h.batches)

/-- **And so does an answer**, for every table it reports. -/
theorem IsSnapshot.numRows (hP : P.Lawful L) (hK : DecodesAll K) {sql : Name} {response : QueryResult ω}
    (h : IsSnapshot L P K db setup fs done sql response) {r : TableRef} (hr : r.Parsed) {t : QueriedTable}
    (ht : response.tables.lookup r.toString = some t) : t.numRows = rowsPosted db (db.tableDir r).loc done := by
  obtain ⟨statement, tableRefs, schemas, data, -, -, -, -, -, -, hrefs, hkeys, hreports, -⟩ := h
  have hkey : r.toString ∈ tableRefs.map TableRef.toString := by
    rw [← hkeys, IndexMap.mem_keys_iff, ht]
    rfl
  obtain ⟨r', hr', heq⟩ := List.mem_map.mp hkey
  obtain rfl : r' = r := TableRef.toString_injective (hP.tableRefs_parsed _ _ hrefs r' hr') hr heq
  obtain ⟨b, k, e, hreport, hcovers⟩ := hreports r' hr'
  obtain ⟨t', hqueried, ht'⟩ := hreport.table
  obtain rfl : t = t' := Option.some.inj (ht.symm.trans ht')
  obtain ⟨encoded, -, htable⟩ := Outcome.bind_eq_ok.mp hqueried
  obtain rfl := Outcome.pure_eq_ok.mp htable
  exact hcovers.numRows_eq hK

/-- **A table that was created is described as it was declared**, with the rows posted to it. -/
theorem Ledger.describes (hL : L.Lawful) (hP : P.Lawful L) (hK : Describable L P K) (h : Ledger L K db done fs)
    {table : Name} {r : TableRef} {columns : List ColumnJson} {schema : Schema} {d : TableDescription}
    (htable : TableRef.fromStr table = some r) (hdeclares : List.Forall₂ (Declares K) columns schema)
    (hmem : schema ∈ done.filterMap (createdAs db K (db.tableDir r).loc))
    (hshow : («show» L P K db table).eval fs = .ok d) :
    List.Forall₂ (Redeclares K) columns d.columns ∧ d.numRows = rowsPosted db (db.tableDir r).loc done := by
  obtain ⟨r', k, htable', hk, hshows, hrows, -⟩ := eval_show_ok.mp hshow
  obtain rfl : r = r' := Option.some.inj (htable.symm.trans htable')
  obtain ⟨cat, hinv, hposts, hcreated⟩ := h
  obtain ⟨e, hcat, rfl⟩ := hcreated _ schema hmem
  obtain ⟨idx, hs⟩ := hinv.stored _ e trivial hcat
  obtain ⟨k', hk', hcommits⟩ := hs.commitment
  obtain rfl : k' = k := (hk'.at hL).unique ((Db.eval_tableCommitment_ok ⟨table, htable⟩).mp hk).2
  have hbatches := hposts (db.tableDir r).loc
  rw [hcat] at hbatches
  refine ⟨?_, hrows.trans ((Covers.of_log hL hbatches hcommits hs.rows_of_bare).numRows_eq hK.decoded)⟩
  have hcolumns := hP.columnMetadata_commits _ _ hcommits
  have hnd := hK.distinct _ _ hcommits
  rw [TableLog.content_schema] at hcolumns hnd
  obtain ⟨shown, hshows', hredeclares⟩ := redeclares hK hdeclares (P.known_columns hnd hcolumns)
  have hunique : Relator.RightUnique (Shows P) := by
    rintro column ⟨name, type⟩ ⟨name', type'⟩ ⟨rfl, htype⟩ ⟨hname', htype'⟩
    obtain rfl : type = type' := Except.ok.inj (htype.symm.trans htype')
    rw [show name' = column.1 from hname']
  rwa [hunique.forall₂ hshows hshows']

/-- A table whose name holds a NUL is never created. -/
theorem noNul_of_created {r : TableRef} {schema : Schema} {w w' : World Fs (Loc Name)}
    (h : db.createTable L r schema setup w = (.ok (), w')) : (db.tableDir r).hasNul = false := by
  rcases hnul : (db.tableDir r).hasNul with _ | _
  · rfl
  · rw [Db.createTable_eq, Disk.pathExists, if_pos hnul, Disk.createDirAll, Disk.guardNul, if_pos hnul] at h
    have hstop : (Outcome.err FromIo.io : Outcome DbError Unit) = .ok () := congrArg Prod.fst h
    simp at hstop

/-! ### What is listed -/

/-- Directories are never removed, nor replaced by files. -/
def KeepsDirs (fs fs' : Fs) : Prop := ∀ p, fs.lookup p = some .dir → fs'.lookup p = some .dir

theorem respects_keepsDirs : Db.Respects L KeepsDirs where
  refl _ _ hdir := hdir
  trans h h' p hdir := h' p (h p hdir)
  mkdirs _ _ _ _ hdir := (Db.Kept.mkdirs _ _ _ _).isDir hdir
  store h p := (h.isDir_iff p).mpr

/-- The directories in a database's own, as `is_dir` sees them. -/
def dirNames (db : Db) (fs : Fs) : List Name :=
  (fs.children db.dir).filter fun c => !c.contains '\x00' && decide (fs.lookup (db.dir ++ [c]) = some .dir)

/-- What is said of names that do not parse makes no difference to what is listed. -/
theorem listed_of_agree {names : List Name} {kinds : List (Name × Bool)} {g : Name → Bool}
    (h : List.Forall₂ (fun c k => k.1 = c ∧ (c ≠ dotdot → k.2 = g c)) names kinds) :
    (kinds.filter Prod.snd).filterMap (fun k => TableRef.fromStr k.1) =
      (names.filter g).filterMap TableRef.fromStr := by
  induction h with
  | nil => rfl
  | @cons c k names kinds hk _ ih =>
    obtain ⟨rfl, hdir⟩ := hk
    rcases hparse : TableRef.fromStr k.1 with _ | r
    · rw [List.filter_cons, List.filter_cons]
      split
      all_goals
        split
        all_goals simpa [hparse] using ih
    · have hdd : k.1 ≠ dotdot := by
        intro hdd
        have hnone : TableRef.fromStr dotdot = none := by decide
        rw [hdd, hnone] at hparse
        simp at hparse
      rw [List.filter_cons, List.filter_cons, ← hdir hdd]
      split
      · simp only [List.filterMap_cons, hparse, ih]
      · exact ih

/-- **What is listed**, whatever else is in the directory: the directories whose names parse. -/
theorem tables_eq {ts : List TableRef} (h : (Db.tables db).eval fs = .ok ts) :
    ts = (dirNames db fs).filterMap TableRef.fromStr := by
  have hstraight : (Path.ofLoc db.dir).Straight := by simp [Path.Straight, Path.ofLoc]
  have hkind : ∀ c, (do
      let dir ← Disk.isDir (Db.entryPath (Path.ofLoc db.dir) c)
      pure (c, dir) : Io DbError (Name × Bool)).Reader := fun _ =>
    Disk.reader_isDir.bind fun _ => Prog.Reader.pure _
  rw [Db.tables, Disk.reader_readDir.eval_bind_ok fun _ =>
    (Prog.Reader.mapM hkind _).bind fun _ => Prog.Reader.pure _] at h
  obtain ⟨entries, hentries, h⟩ := h
  obtain ⟨-, -, rfl⟩ := (Disk.eval_readDir_ok hstraight).mp hentries
  rw [(Prog.Reader.mapM hkind _).eval_bind_ok fun _ => Prog.Reader.pure _] at h
  obtain ⟨kinds, hkinds, hts⟩ := h
  obtain rfl := Outcome.ok.inj hts
  have hids : ((fs.children (Path.ofLoc db.dir).loc).map some).filterMap id = fs.children db.dir := by
    rw [List.filterMap_map]
    simp [Path.loc, Path.ofLoc]
  rw [hids, Prog.Reader.eval_mapM_ok hkind] at hkinds
  apply listed_of_agree
  refine hkinds.imp fun c k hk => ?_
  rw [Disk.reader_isDir.eval_bind_ok fun _ => Prog.Reader.pure _] at hk
  obtain ⟨dir, hdir, hpure⟩ := hk
  obtain rfl := Outcome.ok.inj hpure
  refine ⟨rfl, fun hc => ?_⟩
  rw [Disk.eval_isDir, Db.hasNul_entryPath, Db.node_entryPath fs hstraight hc] at hdir
  obtain rfl := Outcome.ok.inj hdir
  simp only [Path.hasNul, Path.loc, Path.ofLoc, List.any_nil, Bool.false_or, List.foldl_nil]
  congr

/-- A name and the reference it parses to are listed as the same. -/
theorem map_toString_listed (names : List Name) :
    (names.filterMap TableRef.fromStr).map TableRef.toString = names.filter fun c => (TableRef.fromStr c).isSome := by
  induction names with
  | nil => rfl
  | cons c names ih =>
    rcases hparse : TableRef.fromStr c with _ | r
    · rw [List.filterMap_cons_none hparse, ih, List.filter_cons_of_neg (by simp [hparse])]
    · rw [List.filterMap_cons_some hparse, List.map_cons, ih, TableRef.toString_of_fromStr hparse,
        List.filter_cons_of_pos (by simp [hparse])]

/-- **A listing**, in order and without repetition: the names of directories that parse. -/
theorem eval_list_ok {names : List Name} (h : (list db).eval fs = .ok names) :
    names.Pairwise (· ≤ ·) ∧ names.Nodup ∧ ∀ name, name ∈ names ↔
      (TableRef.fromStr name).isSome = true ∧ name.contains '\x00' = false ∧
        fs.lookup (db.dir ++ [name]) = some .dir := by
  rw [list, listLocked, (Db.reader_tables.mapErr).eval_bind_ok fun _ => Prog.Reader.pure _] at h
  obtain ⟨ts, hts, hnames⟩ := h
  obtain rfl := Outcome.ok.inj hnames
  rw [tables_eq (Outcome.mapErr_eq_ok.mp hts), map_toString_listed]
  refine ⟨sorted_pairwise _, ?_, fun name => ?_⟩
  · apply (List.perm_insertionSort _ _).nodup_iff.mpr
    exact ((FileTree.nodup_children fs db.dir).filter _).filter _
  · rw [mem_sorted, List.mem_filter, dirNames, List.mem_filter, FileTree.mem_children]
    constructor
    · rintro ⟨⟨-, hdir⟩, hparse⟩
      rw [Bool.and_eq_true, decide_eq_true_eq, Bool.not_eq_true'] at hdir
      exact ⟨hparse, hdir⟩
    · rintro ⟨hparse, hnul, hdir⟩
      refine ⟨⟨by rw [hdir]; simp, ?_⟩, hparse⟩
      rw [hnul, hdir]
      rfl

/-! ### What came first is counted -/

section Concurrent

variable {ι : Type} [DecidableEq ι] {requests : ι → Request ω × List Fate} {schedule schedule' : List ι}

omit [DecidableEq ι] in
theorem rowsPosted_mono {order order' : List ι} (h : order <+: order') (p : Loc Name) :
    rowsPosted db p (handleAll L P K db setup fs (order.map requests)).1 ≤
      rowsPosted db p (handleAll L P K db setup fs (order'.map requests)).1 := by
  obtain ⟨rest, rfl⟩ := h
  rw [List.map_append, handleAll_append]
  show _ ≤ rowsPosted db p (_ ++ _)
  rw [rowsPosted_append]
  exact Nat.le_add_right _ _

omit [DecidableEq ι] in
/-- Distinct clients' posts are among all that were posted. -/
theorem sum_posts_le {R : Type} {g : ι × R → Option (List ω)} {clients : List ι} (hnd : clients.Nodup)
    {rows : ι → List ω}
    {served : List (ι × R)} (h : ∀ i ∈ clients, ∃ reply, (i, reply) ∈ served ∧ g (i, reply) = some (rows i)) :
    (clients.map fun i => (rows i).length).sum ≤ ((served.filterMap g).map List.length).sum := by
  induction clients generalizing served with
  | nil => exact Nat.zero_le _
  | cons i clients ih =>
    obtain ⟨hi, hrest⟩ := List.nodup_cons.mp hnd
    obtain ⟨reply, hmem, hg⟩ := h i List.mem_cons_self
    obtain ⟨before, after, rfl⟩ := List.append_of_mem hmem
    -- the other clients' posts are in what is left without this one's
    have hothers : (clients.map fun j => (rows j).length).sum ≤
        (((before ++ after).filterMap g).map List.length).sum := by
      refine ih hrest fun j hj => ?_
      obtain ⟨reply', hmem', hg'⟩ := h j (List.mem_cons_of_mem _ hj)
      have hne : (j, reply') ≠ (i, reply) := fun heq => hi ((Prod.mk.inj heq).1 ▸ hj)
      refine ⟨reply', ?_, hg'⟩
      simpa [hne] using hmem'
    rw [List.filterMap_append, List.map_append, List.sum_append] at hothers ⊢
    rw [List.filterMap_cons_some hg, List.map_cons, List.sum_cons, List.map_cons, List.sum_cons]
    omega

/-- **What is answered is right for the requests before**: a query reports the rows posted by those that held the lock
before it. -/
theorem answered_counts (hL : L.Lawful) (hP : P.Lawful L) (hK : DecodesAll K) (hnone : ∀ p, Db.Unlogged L fs p)
    (hwhole : AllWhole L P K db setup fs ((serviceRun L P K db setup requests fs schedule).order.map requests))
    {i : ι} {sql : Name} {response : QueryResult ω} (hq : (requests i).1 = .query sql)
    (h : (serviceRun L P K db setup requests fs schedule).phase i = .replied (.answered (.ok response))) :
    ∃ pre post, (serviceRun L P K db setup requests fs schedule).order = pre ++ i :: post ∧
      ∀ (r : TableRef) t, r.Parsed → response.tables.lookup r.toString = some t →
        t.numRows = rowsPosted db (db.tableDir r).loc (handleAll L P K db setup fs (pre.map requests)).1 := by
  obtain ⟨pre, post, w', horder, hrun⟩ := answered_held hq h
  obtain ⟨hbefore, hl, -⟩ := hwhole.before horder
  have hsnapshot := ((Ledger.nil hnone).run hL hbefore).isSnapshot hL hP hl hrun
  exact ⟨pre, post, horder, fun r t hr ht => hsnapshot.numRows hP hK hr ht⟩

/-- The posts that were answered with `201` by some time are counted from then on. -/
theorem inserted_counts {clients order : List ι} (hnd : clients.Nodup) {rows : ι → List ω} {r : TableRef}
    (h : ∀ i ∈ clients, ∃ table status, (requests i).1 = .insert table (rows i) ∧ TableRef.fromStr table = some r ∧
      (serviceRun L P K db setup requests fs schedule).phase i = .replied (.inserted (.ok status)))
    (hpre : (serviceRun L P K db setup requests fs schedule).order <+: order) :
    (clients.map fun i => (rows i).length).sum ≤
      rowsPosted db (db.tableDir r).loc (handleAll L P K db setup fs (order.map requests)).1 := by
  rw [rowsPosted, posted, serve_parts, List.filterMap_map]
  apply sum_posts_le hnd
  intro i hi
  obtain ⟨table, status, hq, htable, hreply⟩ := h i hi
  refine ⟨.inserted (.ok status), mem_serve_parts.mpr ?_, ?_⟩
  · obtain ⟨rest, rfl⟩ := hpre
    obtain ⟨pre, post, horder, hheld⟩ := held (by simp [hq]) hreply rfl
    exact ⟨pre, post ++ rest, by rw [horder, List.append_assoc]; rfl, hheld⟩
  · show postedTo db _ ((requests i).1, .inserted (.ok status)) = _
    rw [hq, postedTo, htable]
    simp

/-- **Answers never go back.**  A query that had not held the lock when other requests were answered reports, for every
table, at least the rows of all posts answered with `201` and at least what any query had been answered. -/
theorem answers_never_go_back (hL : L.Lawful) (hP : P.Lawful L) (hK : DecodesAll K) (hnone : ∀ p, Db.Unlogged L fs p)
    (hwhole : AllWhole L P K db setup fs
      ((serviceRun L P K db setup requests fs (schedule ++ schedule')).order.map requests))
    {j : ι} {sql : Name} {response : QueryResult ω} (hq : (requests j).1 = .query sql)
    (hafter : j ∉ (serviceRun L P K db setup requests fs schedule).order)
    (h : (serviceRun L P K db setup requests fs (schedule ++ schedule')).phase j = .replied (.answered (.ok response)))
    {r : TableRef} {t : QueriedTable} (hr : r.Parsed) (ht : response.tables.lookup r.toString = some t) :
    (∀ (clients : List ι) (rows : ι → List ω), clients.Nodup →
      (∀ i ∈ clients, ∃ table status, (requests i).1 = .insert table (rows i) ∧ TableRef.fromStr table = some r ∧
        (serviceRun L P K db setup requests fs schedule).phase i = .replied (.inserted (.ok status))) →
        (clients.map fun i => (rows i).length).sum ≤ t.numRows) ∧
      ∀ i sql' response' t', (requests i).1 = .query sql' →
        (serviceRun L P K db setup requests fs schedule).phase i = .replied (.answered (.ok response')) →
          response'.tables.lookup r.toString = some t' → t'.numRows ≤ t.numRows := by
  obtain ⟨pre, post, horder, hcounts⟩ := answered_counts hL hP hK hnone hwhole hq h
  -- everything that held the lock by then did so before this query
  have hpre := serviceRun_before hafter horder
  rw [hcounts r t hr ht]
  refine ⟨fun clients rows hnd hposts => inserted_counts hnd hposts hpre, ?_⟩
  intro i sql' response' t' hq' h' ht'
  obtain ⟨pre', post', horder', hcounts'⟩ := answered_counts hL hP hK hnone
    (hwhole.of_prefix (serviceRun_extends schedule')) hq' h'
  rw [hcounts' r t' hr ht']
  have hearlier : pre' <+: (serviceRun L P K db setup requests fs schedule).order := by
    rw [horder']
    exact List.prefix_append _ _
  exact rowsPosted_mono (hearlier.trans hpre) _

/-- A description that was given. -/
theorem described_held {i : ι} {table : Name} {d : TableDescription} (hq : (requests i).1 = .show table)
    (h : (serviceRun L P K db setup requests fs schedule).phase i = .replied (.described (.ok d))) :
    ∃ pre post w', (serviceRun L P K db setup requests fs schedule).order = pre ++ i :: post ∧
      «show» L P K db table ⟨(handleAll L P K db setup fs (pre.map requests)).2, (requests i).2, []⟩ = (.ok d, w') := by
  obtain ⟨pre, post, horder, hr⟩ := held (by simp [hq]) h rfl
  rw [hq] at hr
  exact ⟨pre, post, _, horder, Prod.ext (Reply.described.inj hr).symm rfl⟩

/-- A create that was answered with `201`, and what the database's own create left. -/
theorem created_held {c : ι} {table : Name} {columns : List ColumnJson} {status : ℕ}
    (hq : (requests c).1 = .create table columns)
    (h : (serviceRun L P K db setup requests fs schedule).phase c = .replied (.created (.ok status))) :
    ∃ pre post r schema w', (serviceRun L P K db setup requests fs schedule).order = pre ++ c :: post ∧
      createBefore K table columns = .ok (r, schema) ∧
      db.createTable L r schema setup ⟨(handleAll L P K db setup fs (pre.map requests)).2, (requests c).2, []⟩ =
        (.ok (), w') ∧
      handle L P K db setup (requests c).1 (requests c).2 (handleAll L P K db setup fs (pre.map requests)).2 =
        (.created (.ok status), w'.state) := by
  obtain ⟨pre, post, horder, hr⟩ := held (by simp [hq]) h rfl
  rw [hq] at hr ⊢
  obtain ⟨r, schema, hbefore, hcreate, -⟩ := create_eq_ok.mp (Prod.ext (Reply.created.inj hr).symm rfl)
  exact ⟨pre, post, r, schema, _, horder, hbefore, hcreate, Prod.ext hr.symm rfl⟩

/-- What a create declared that was answered with `201` by some time is known from then on. -/
theorem created_known {c : ι} {order : List ι} {table : Name} {columns : List ColumnJson} {status : ℕ}
    (hq : (requests c).1 = .create table columns)
    (h : (serviceRun L P K db setup requests fs schedule).phase c = .replied (.created (.ok status)))
    (hpre : (serviceRun L P K db setup requests fs schedule).order <+: order) :
    ∃ r schema, TableRef.fromStr table = some r ∧ (db.tableDir r).hasNul = false ∧
      List.Forall₂ (Declares K) columns schema ∧
      schema ∈ (handleAll L P K db setup fs (order.map requests)).1.filterMap (createdAs db K (db.tableDir r).loc) := by
  obtain ⟨pre, post, r, schema, w', horder, hbefore, hcreate, hheld⟩ := created_held hq h
  obtain ⟨htable, hdeclares⟩ := createBefore_eq_ok.mp hbefore
  refine ⟨r, schema, htable, noNul_of_created hcreate, hdeclares, ?_⟩
  obtain ⟨rest, rfl⟩ := hpre
  have hserved : (c, .created (.ok status)) ∈
      (GlobalLock.serve (parts L P K db setup requests) fs
        ((serviceRun L P K db setup requests fs schedule).order ++ rest)).1 :=
    mem_serve_parts.mpr ⟨pre, post ++ rest, by rw [horder, List.append_assoc]; rfl, by rw [hheld]⟩
  rw [serve_parts]
  refine List.mem_filterMap.mpr ⟨_, List.mem_map_of_mem hserved, ?_⟩
  show createdAs db K _ ((requests c).1, .created (.ok status)) = _
  rw [hq]
  simp [createdAs, hbefore]

/-- **Descriptions are snapshots.**  Once a create was answered with `201`, whatever description of the table a request
is given that had not held the lock by then has the columns the create declared and the rows posted by those before
it. -/
theorem descriptions_are_snapshots (hL : L.Lawful) (hP : P.Lawful L) (hK : Describable L P K)
    (hnone : ∀ p, Db.Unlogged L fs p) (hwhole : AllWhole L P K db setup fs
      ((serviceRun L P K db setup requests fs (schedule ++ schedule')).order.map requests))
    {c i : ι} {table : Name} {columns : List ColumnJson} {status : ℕ} {d : TableDescription}
    (hc : (requests c).1 = .create table columns)
    (hcreated : (serviceRun L P K db setup requests fs schedule).phase c = .replied (.created (.ok status)))
    (hi : (requests i).1 = .show table) (hafter : i ∉ (serviceRun L P K db setup requests fs schedule).order)
    (h : (serviceRun L P K db setup requests fs (schedule ++ schedule')).phase i = .replied (.described (.ok d))) :
    ∃ r pre post, TableRef.fromStr table = some r ∧
      (serviceRun L P K db setup requests fs (schedule ++ schedule')).order = pre ++ i :: post ∧
      (serviceRun L P K db setup requests fs schedule).order <+: pre ∧ List.Forall₂ (Redeclares K) columns d.columns ∧
      d.numRows = rowsPosted db (db.tableDir r).loc (handleAll L P K db setup fs (pre.map requests)).1 := by
  obtain ⟨pre, post, w', horder, hrun⟩ := described_held hi h
  obtain ⟨hbefore, hl, -⟩ := hwhole.before horder
  have hpre := serviceRun_before hafter horder
  obtain ⟨r, schema, htable, -, hdeclares, hmem⟩ := created_known hc hcreated hpre
  have heval := reader_show.honest _ d hl (by rw [hrun])
  have hledger := (Ledger.nil hnone).run hL hbefore
  exact ⟨r, pre, post, htable, horder, hpre, hledger.describes hL hP hK htable hdeclares hmem heval⟩

/-- A listing that was given. -/
theorem listed_held {i : ι} {names : List Name} (hq : (requests i).1 = .list)
    (h : (serviceRun L P K db setup requests fs schedule).phase i = .replied (.listed (.ok names))) :
    ∃ pre post w', (serviceRun L P K db setup requests fs schedule).order = pre ++ i :: post ∧
      list db ⟨(handleAll L P K db setup fs (pre.map requests)).2, (requests i).2, []⟩ = (.ok names, w') := by
  obtain ⟨pre, post, horder, hr⟩ := held (by simp [hq]) h rfl
  rw [hq] at hr
  exact ⟨pre, post, _, horder, Prod.ext (Reply.listed.inj hr).symm rfl⟩

/-- **A table whose create was answered with `201` by some time is there from then on.** -/
theorem created_isDir (hl : ∀ i, Lossless (requests i).2) {c : ι} {order : List ι} {table : Name}
    {columns : List ColumnJson} {status : ℕ} (hq : (requests c).1 = .create table columns)
    (h : (serviceRun L P K db setup requests fs schedule).phase c = .replied (.created (.ok status)))
    (hpre : (serviceRun L P K db setup requests fs schedule).order <+: order) :
    ∃ r, TableRef.fromStr table = some r ∧ (db.tableDir r).hasNul = false ∧
      (handleAll L P K db setup fs (order.map requests)).2.lookup (db.tableDir r).loc = some .dir := by
  obtain ⟨pre, post, r, schema, w', horder, hbefore, hcreate, hheld⟩ := created_held hq h
  obtain ⟨htable, -⟩ := createBefore_eq_ok.mp hbefore
  obtain ⟨hnul, hnew⟩ := Db.Stored.of_createTable ⟨table, htable⟩ (hl c) hcreate
  obtain ⟨rest, rfl⟩ := hpre
  refine ⟨r, htable, hnul, ?_⟩
  have hsplit : (handleAll L P K db setup fs ((pre ++ c :: (post ++ rest)).map requests)).2 =
      (handleAll L P K db setup w'.state ((post ++ rest).map requests)).2 := by
    rw [List.map_append, handleAll_append, List.map_cons]
    show (handleAll L P K db setup (handle L P K db setup (requests c).1 (requests c).2 _).2 _).2 = _
    rw [hheld]
  have hlater : KeepsDirs w'.state (handleAll L P K db setup w'.state ((post ++ rest).map requests)).2 :=
    leaves_handleAll respects_keepsDirs (List.forall_mem_map.mpr fun i _ => hl i)
  rw [horder, List.append_assoc, List.cons_append, hsplit]
  exact hlater _ hnew.isDir

/-- **Listings are snapshots.**  A listing is in order and without repetition, and names the directories there were when
it held the lock and whose names parse; among them, under its own name, every table whose name is one part of a path and
whose create had been answered with `201` when others held the lock. -/
theorem lists_are_snapshots (hl : ∀ i, Lossless (requests i).2) {i : ι} {names : List Name}
    (hi : (requests i).1 = .list) (hafter : i ∉ (serviceRun L P K db setup requests fs schedule).order)
    (h : (serviceRun L P K db setup requests fs (schedule ++ schedule')).phase i = .replied (.listed (.ok names))) :
    ∃ pre post, (serviceRun L P K db setup requests fs (schedule ++ schedule')).order = pre ++ i :: post ∧
      (serviceRun L P K db setup requests fs schedule).order <+: pre ∧ names.Pairwise (· ≤ ·) ∧ names.Nodup ∧
      (∀ name, name ∈ names ↔ (TableRef.fromStr name).isSome = true ∧ name.contains '\x00' = false ∧
        (handleAll L P K db setup fs (pre.map requests)).2.lookup (db.dir ++ [name]) = some .dir) ∧
      ∀ c table columns status, (requests c).1 = .create table columns → Plain table →
        (serviceRun L P K db setup requests fs schedule).phase c = .replied (.created (.ok status)) →
          table ∈ names := by
  obtain ⟨pre, post, w', horder, hrun⟩ := listed_held hi h
  have hpre := serviceRun_before hafter horder
  obtain ⟨hsorted, hnd, hnames⟩ := eval_list_ok (reader_list.honest _ names (hl i) (by rw [hrun]))
  refine ⟨pre, post, horder, hpre, hsorted, hnd, hnames, ?_⟩
  intro c table columns status hc hplain hcreated
  obtain ⟨r, htable, hnul, hdir⟩ := created_isDir hl hc hcreated hpre
  have htoString := TableRef.toString_of_fromStr htable
  have hloc : (db.tableDir r).loc = db.dir ++ [table] := by
    rw [Db.tableDir, htoString, hplain.join_loc]
    rfl
  have hno : table.contains '\x00' = false := by
    rw [Db.tableDir, htoString, hplain.join] at hnul
    simpa [Path.hasNul, Path.ofLoc] using hnul
  rw [hloc] at hdir
  exact (hnames table).mpr ⟨by rw [htable]; rfl, hno, hdir⟩

end Concurrent

section Sample

open SampleLibs (ids home people)
open SampleService

/-- A table is created and posted to; two clients query it, one has it described, and one has it listed. -/
def readers : ℕ → Request UInt8 × List Fate
  | 0 => (.create people.toString declared, [])
  | 1 => (.insert people.toString [1, 2], [])
  | 2 => (.insert people.toString [3], [])
  | 3 => (.query people.toString, [])
  | 4 => (.query people.toString, [])
  | 5 => (.show people.toString, [])
  | _ => (.list, [])

/-- One post and one query are done before the others begin. -/
def firstReads : List ℕ := [0, 0, 0, 1, 1, 1, 3, 3, 3]

def lastReads : List ℕ := [4, 5, 2, 2, 4, 5, 2, 4, 5, 6, 6, 6]

def readersRun (schedule : List ℕ) : GlobalLock.State Fs (Reply UInt8) fun i => (readers i).1.Taken libs proofs :=
  serviceRun libs proofs codecs ⟨home⟩ 9 readers Db.sampleStart schedule

/-- What the first part of the run comes to. -/
theorem firstReads_is : (readersRun firstReads).order = [0, 1, 3] ∧
    ((readersRun firstReads).phase 0).reply = some (.created (.ok 201)) ∧
    ((readersRun firstReads).phase 1).reply = some (.inserted (.ok 201)) ∧
    ((readersRun firstReads).phase 3).reply = some (.answered (.ok (answerFor ⟨ids, [1, 2]⟩))) := by
  decide +kernel

/-- What the whole run comes to. -/
theorem lastReads_is : (readersRun (firstReads ++ lastReads)).order = [0, 1, 3, 2, 4, 5, 6] ∧
    (∀ d ∈ (handleAll libs proofs codecs ⟨home⟩ 9 Db.sampleStart ([0, 1, 3, 2, 4, 5, 6].map readers)).1,
      d.2.succeeded = true) ∧
    ((readersRun (firstReads ++ lastReads)).phase 4).reply = some (.answered (.ok (answerFor ⟨ids, [1, 2, 3]⟩))) ∧
    ((readersRun (firstReads ++ lastReads)).phase 5).reply =
      some (.described (.ok ⟨declared, 3, toText ((SampleLibs.encode ⟨ids, [1, 2, 3]⟩).getD [])⟩)) ∧
    ((readersRun (firstReads ++ lastReads)).phase 6).reply = some (.listed (.ok [people.toString])) := by
  decide +kernel

theorem firstReads_order : (readersRun firstReads).order = [0, 1, 3] := firstReads_is.1

theorem readers_calm : ∀ i, Lossless (readers i).2
  | 0 | 1 | 2 | 3 | 4 | 5 | _ + 6 => Lossless.nil

theorem allWhole_readersRun : AllWhole libs proofs codecs ⟨home⟩ 9 Db.sampleStart
    ((readersRun (firstReads ++ lastReads)).order.map readers) := by
  rw [lastReads_is.1]
  refine allWhole_of_succeeded ?_ lastReads_is.2.1
  intro q hq
  obtain ⟨i, -, rfl⟩ := List.mem_map.mp hq
  exact readers_calm i

theorem readers_answered : (readersRun (firstReads ++ lastReads)).phase 4 =
    .replied (.answered (.ok (answerFor ⟨ids, [1, 2, 3]⟩))) :=
  GlobalLock.Phase.reply_eq_some.mp lastReads_is.2.2.1

theorem readers_answered_before : (readersRun firstReads).phase 3 =
    .replied (.answered (.ok (answerFor ⟨ids, [1, 2]⟩))) :=
  GlobalLock.Phase.reply_eq_some.mp firstReads_is.2.2.2

theorem readers_inserted : (readersRun firstReads).phase 1 = .replied (.inserted (.ok 201)) :=
  GlobalLock.Phase.reply_eq_some.mp firstReads_is.2.2.1

theorem answers_never_go_back_sample : ∃ t t', (answerFor ⟨ids, [1, 2, 3]⟩).tables.lookup people.toString = some t ∧
    (answerFor ⟨ids, [1, 2]⟩).tables.lookup people.toString = some t' ∧ 2 ≤ t.numRows ∧ t'.numRows ≤ t.numRows := by
  have hsome : ∀ b, ((answerFor b).tables.lookup people.toString).isSome = true := fun _ => rfl
  obtain ⟨t, ht⟩ := Option.isSome_iff_exists.mp (hsome ⟨ids, [1, 2, 3]⟩)
  obtain ⟨t', ht'⟩ := Option.isSome_iff_exists.mp (hsome ⟨ids, [1, 2]⟩)
  have hafter : 4 ∉ (readersRun firstReads).order := by
    rw [firstReads_order]
    decide
  obtain ⟨hposts, hqueries⟩ := answers_never_go_back libs_lawful proofs_lawful describable.decoded unlogged_sampleStart
    allWhole_readersRun rfl hafter readers_answered ⟨people.toString, rfl⟩ ht
  refine ⟨t, t', ht, ht', hposts [1] (fun _ => [1, 2]) (List.nodup_singleton 1) fun i hi => ?_, ?_⟩
  · obtain rfl := List.mem_singleton.mp hi
    exact ⟨people.toString, 201, rfl, rfl, readers_inserted⟩
  · exact hqueries 3 people.toString _ t' rfl readers_answered_before ht'

theorem readers_created : (readersRun firstReads).phase 0 = .replied (.created (.ok 201)) :=
  GlobalLock.Phase.reply_eq_some.mp firstReads_is.2.1

theorem readers_described : (readersRun (firstReads ++ lastReads)).phase 5 = .replied (.described (.ok
    ⟨declared, 3, toText ((SampleLibs.encode ⟨ids, [1, 2, 3]⟩).getD [])⟩)) :=
  GlobalLock.Phase.reply_eq_some.mp lastReads_is.2.2.2.1

theorem descriptions_are_snapshots_sample : ∃ pre, [0, 1, 3] <+: pre ∧
    List.Forall₂ (Redeclares codecs) declared declared ∧
    rowsPosted ⟨home⟩ ((⟨home⟩ : Db).tableDir people).loc
      (handleAll libs proofs codecs ⟨home⟩ 9 Db.sampleStart (pre.map readers)).1 = 3 := by
  have hafter : 5 ∉ (readersRun firstReads).order := by
    rw [firstReads_order]
    decide
  obtain ⟨r, pre, post, htable, -, hpre, hcolumns, hrows⟩ := descriptions_are_snapshots libs_lawful proofs_lawful
    describable unlogged_sampleStart allWhole_readersRun rfl readers_created rfl hafter readers_described
  obtain rfl : people = r := Option.some.inj htable
  exact ⟨pre, firstReads_order ▸ hpre, hcolumns, hrows.symm⟩

theorem readers_listed : (readersRun (firstReads ++ lastReads)).phase 6 = .replied (.listed (.ok [people.toString])) :=
  GlobalLock.Phase.reply_eq_some.mp lastReads_is.2.2.2.2

theorem lists_are_snapshots_sample : ∃ pre, [0, 1, 3] <+: pre ∧ people.toString ∈ [people.toString] ∧
    (handleAll libs proofs codecs ⟨home⟩ 9 Db.sampleStart (pre.map readers)).2.lookup (home ++ [people.toString])
      = some .dir := by
  have hafter : 6 ∉ (readersRun firstReads).order := by
    rw [firstReads_order]
    decide
  obtain ⟨pre, post, -, hpre, -, -, hnames, hcreated⟩ :=
    lists_are_snapshots readers_calm rfl hafter readers_listed
  have hmem := hcreated 0 people.toString declared 201 rfl (by decide) readers_created
  exact ⟨pre, firstReads_order ▸ hpre, hmem, ((hnames _).mp hmem).2.2⟩

end Sample

end SxtEnterprise.Api
