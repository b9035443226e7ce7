import SxtEnterprise.Api
import SxtEnterprise.GlobalLock

/-!
# The service: any number of requests at once

`api/mod.rs`.  A request is handled in three parts: what its handler does before it takes the lock, under the lock,
and after it has given it back.  `staged` cuts every handler there, and `staged_run` says that the three parts one
after the other are the handler.  So what the lock guarantees in general holds of the service (`serializable`):
whatever the schedule, the replies and the files are those of the handlers run one after the other.

A process killed in a stretch is a stretch that ends as `.killed`; that no other request moves on afterwards is one of
the schedules.
-/

namespace SxtEnterprise.Api

open NumberedNames FaultyRun

/-- The routes, and what is read off a request to them. -/
inductive Request (ω : Type) where
  | health
  | list
  | create (table : Name) (columns : List ColumnJson)
  | «show» (table : Name)
  | insert (table : Name) (rows : List ω)
  | query (sql : Name)

/-- How a handler ends: with a status, a body, or an error that has a status. -/
inductive Reply (ω : Type) where
  | healthy (status : Outcome Empty ℕ)
  | listed (tables : Outcome TableError (List Name))
  | created (status : Outcome TableError ℕ)
  | described (description : Outcome TableError TableDescription)
  | inserted (status : Outcome RowsError ℕ)
  | answered (result : Outcome QueryError (QueryResult ω))
  deriving DecidableEq

/-- The request was answered with what it asked for. -/
def Reply.succeeded {ω : Type} : Reply ω → Bool
  | .healthy status => status.isOk
  | .listed tables => tables.isOk
  | .created status => status.isOk
  | .described description => description.isOk
  | .inserted status => status.isOk
  | .answered result => result.isOk

/-- `GET /health`: if the process is serving requests, it is up. -/
def health : Outcome Empty ℕ := pure 200

section Stages

variable {R ε α β γ : Type}

/-- A handler cut at the lock.  What it worked out before goes with it through the lock. -/
def stage (before : Outcome ε β) (locked : β → Io ε α) (after : β → α → Outcome ε γ)
    (wrap : Outcome ε γ → R) (fates : List Fate) : GlobalLock.Request Fs (Outcome ε (β × α)) R where
  before :=
    match before with
    | .ok b => .inr fun fs =>
      let done := locked b ⟨fs, fates, []⟩
      ((b, ·) <$> done.1, done.2.state)
    | .err e => .inl (wrap (.err e))
    | .panic => .inl (wrap .panic)
    | .killed => .inl (wrap .killed)
  after taken := wrap (taken >>= fun t => after t.1 t.2)

/-- What a handler replies, and the files it leaves. -/
def answer (wrap : Outcome ε α → R) (m : Io ε α) (fates : List Fate) (fs : Fs) : R × Fs :=
  let done := m ⟨fs, fates, []⟩
  (wrap done.1, done.2.state)

/-- **The parts of a handler, one after the other.** -/
theorem stage_run (before : Outcome ε β) (locked : β → Io ε α) (after : β → α → Outcome ε γ)
    (wrap : Outcome ε γ → R) (fates : List Fate) (fs : Fs) {m : Io ε γ} (hm : m = (do
      let b ← Prog.ofOutcome before
      let a ← locked b
      Prog.ofOutcome (after b a))) : (stage before locked after wrap fates).run fs = answer wrap m fates fs := by
  subst hm
  rcases before with b | e | _ | _
  · show (wrap (((b, ·) <$> (locked b ⟨fs, fates, []⟩).1) >>= fun t => after t.1 t.2),
      (locked b ⟨fs, fates, []⟩).2.state) =
        (wrap ((locked b >>= fun a => Prog.ofOutcome (after b a)) ⟨fs, fates, []⟩).1,
          ((locked b >>= fun a => Prog.ofOutcome (after b a)) ⟨fs, fates, []⟩).2.state)
    rw [Prog.andThen_run]
    rcases (locked b ⟨fs, fates, []⟩).1 with a | e | _ | _
    all_goals rfl
  all_goals rfl

/-- A request that is answered without the lock is not answered well. -/
theorem stage_before_inl {before : Outcome ε β} {locked : β → Io ε α} {after : β → α → Outcome ε γ}
    {wrap : Outcome ε γ → R} {fates : List Fate} {reply : R}
    (h : (stage before locked after wrap fates).before = .inl reply) : ∃ o, reply = wrap o ∧ ∀ c, o ≠ .ok c := by
  rcases before with b | e | _ | _
  · simp [stage] at h
  · exact ⟨.err e, (Sum.inl.inj h).symm, by simp⟩
  · exact ⟨.panic, (Sum.inl.inj h).symm, by simp⟩
  · exact ⟨.killed, (Sum.inl.inj h).symm, by simp⟩

end Stages

variable {ρ κ σ ω : Type} (L : Libs ρ κ σ) (P : ProofSystem ρ κ σ) (K : Codecs ρ ω) (db : Db) (setup : σ)

/-- What a request takes away from the lock. -/
def Request.Taken : Request ω → Type
  | .health => Unit
  | .list => Outcome TableError (Unit × List TableRef)
  | .create _ _ => Outcome TableError ((TableRef × Schema) × Unit)
  | .show _ => Outcome TableError (TableRef × IndexMap TableRef κ)
  | .insert _ _ => Outcome RowsError (TableRef × Unit)
  | .query _ => Outcome QueryError (List TableRef × Proved L P)

/-- Every handler, cut at the lock.  `health` does not take it. -/
def staged (request : Request ω) (fates : List Fate) : GlobalLock.Request Fs (request.Taken L P) (Reply ω) :=
  match request with
  | .health => ⟨.inl (.healthy health), fun _ => .healthy health⟩
  | .list => stage (pure ()) (fun _ => listLocked db) (fun _ tables => pure (sorted (tables.map TableRef.toString)))
      .listed fates
  | .create table columns => stage (createBefore K table columns) (fun t => createLocked L db setup t.1 t.2)
      (fun _ _ => pure 201) .created fates
  | .show table => stage (.ofOption .tableName (TableRef.fromStr table)) (showLocked L db) (showAfter L P K)
      .described fates
  | .insert table rows => stage (insertBefore table) (fun tableRef => insertLocked L K db setup tableRef rows)
      (fun _ _ => pure 201) .inserted fates
  | .query sql => stage (queryBefore P sql) (queryLocked L P db setup sql) (fun _ => queryAfter L P K) .answered fates

/-- A request handled on its own. -/
def handle (request : Request ω) : List Fate → Fs → Reply ω × Fs :=
  match request with
  | .health => answer .healthy (Prog.ofOutcome health)
  | .list => answer .listed (list db)
  | .create table columns => answer .created (create L K db setup table columns)
  | .show table => answer .described («show» L P K db table)
  | .insert table rows => answer .inserted (insert L K db setup table rows)
  | .query sql => answer .answered (query L P K db setup sql)

/-- **A request's parts, one after the other, are its handler.** -/
theorem staged_run (request : Request ω) (fates : List Fate) (fs : Fs) :
    (staged L P K db setup request fates).run fs = handle L P K db setup request fates fs := by
  cases request with
  | health => rfl
  | list =>
    exact stage_run (m := list db) (pure ()) (fun _ => listLocked db)
      (fun _ tables => pure (sorted (tables.map TableRef.toString))) Reply.listed fates fs rfl
  | create table columns =>
    apply stage_run
    rfl
  | «show» table =>
    apply stage_run
    rw [«show»]
    rcases TableRef.fromStr table with _ | r
    all_goals rfl
  | insert table rows =>
    apply stage_run
    rfl
  | query sql =>
    apply stage_run
    rfl

/-! ### One after the other -/

/-- Requests handled one after the other: what each was answered, and the files they leave. -/
def handleAll (fs : Fs) : List (Request ω × List Fate) → List (Request ω × Reply ω) × Fs
  | [] => ([], fs)
  | (request, fates) :: requests =>
    let done := handle L P K db setup request fates fs
    let rest := handleAll done.2 requests
    ((request, done.1) :: rest.1, rest.2)

theorem handleAll_append (fs : Fs) (requests requests' : List (Request ω × List Fate)) :
    handleAll L P K db setup fs (requests ++ requests') =
      let first := handleAll L P K db setup fs requests
      let rest := handleAll L P K db setup first.2 requests'
      (first.1 ++ rest.1, rest.2) := by
  induction requests generalizing fs with
  | nil => rfl
  | cons q requests ih =>
    show (_ :: (handleAll L P K db setup _ (requests ++ requests')).1,
      (handleAll L P K db setup _ (requests ++ requests')).2) = _
    rw [ih]
    rfl

section Concurrent

variable {ι : Type} (requests : ι → Request ω × List Fate)

/-- The requests of all clients, each cut at the lock. -/
def parts (i : ι) : GlobalLock.Request Fs ((requests i).1.Taken L P) (Reply ω) :=
  staged L P K db setup (requests i).1 (requests i).2

/-- What the lock serializes is what the handlers do. -/
theorem serve_parts (fs : Fs) (order : List ι) : handleAll L P K db setup fs (order.map requests) =
    let served := GlobalLock.serve (parts L P K db setup requests) fs order
    (served.1.map fun e => ((requests e.1).1, e.2), served.2) := by
  induction order generalizing fs with
  | nil => rfl
  | cons i order ih =>
    have hrun := staged_run L P K db setup (requests i).1 (requests i).2 fs
    show (((requests i).1, (handle L P K db setup (requests i).1 (requests i).2 fs).1) ::
      (handleAll L P K db setup (handle L P K db setup (requests i).1 (requests i).2 fs).2 (order.map requests)).1,
      (handleAll L P K db setup (handle L P K db setup (requests i).1 (requests i).2 fs).2 (order.map requests)).2) = _
    rw [← hrun, ih]
    rfl

variable [DecidableEq ι]

/-- The service from the files `fs` on, as the schedule lets the requests move on. -/
def serviceRun (fs : Fs) (schedule : List ι) : GlobalLock.State Fs (Reply ω) fun i => (requests i).1.Taken L P :=
  GlobalLock.interleave (parts L P K db setup requests) (GlobalLock.State.init fs) schedule

variable {L P K db setup requests} {fs : Fs} {schedule : List ι}

omit [DecidableEq ι] in
/-- What a request is answered that holds the lock after those before it. -/
theorem mem_serve_parts {order : List ι} {i : ι} {reply : Reply ω} :
    (i, reply) ∈ (GlobalLock.serve (parts L P K db setup requests) fs order).1 ↔
      ∃ pre post, order = pre ++ i :: post ∧ reply = (handle L P K db setup (requests i).1 (requests i).2
        (handleAll L P K db setup fs (pre.map requests)).2).1 := by
  simp only [GlobalLock.mem_serve, serve_parts, ← staged_run]
  rfl

theorem serviceRun_linearized :
    GlobalLock.Linearized (parts L P K db setup requests) fs (serviceRun L P K db setup requests fs schedule) :=
  GlobalLock.linearized_interleave GlobalLock.linearized_init schedule

/-- The files are those the requests leave that held the lock, handled in that order. -/
theorem serviceRun_shared : (serviceRun L P K db setup requests fs schedule).shared =
    (handleAll L P K db setup fs ((serviceRun L P K db setup requests fs schedule).order.map requests)).2 := by
  rw [serve_parts]
  exact serviceRun_linearized.shared

/-- A reply is the handler's: whenever, if the request never needed the lock; else right after those that held it
before. -/
theorem serviceRun_reply {i : ι} {reply : Reply ω}
    (h : (serviceRun L P K db setup requests fs schedule).phase i = .replied reply) :
    (i ∉ (serviceRun L P K db setup requests fs schedule).order ∧
      ∀ fs', handle L P K db setup (requests i).1 (requests i).2 fs' = (reply, fs')) ∨
    ∃ pre post, (serviceRun L P K db setup requests fs schedule).order = pre ++ i :: post ∧
      reply = (handle L P K db setup (requests i).1 (requests i).2
        (handleAll L P K db setup fs (pre.map requests)).2).1 := by
  rcases serviceRun_linearized.reply h with ⟨hnot, hb⟩ | ⟨pre, post, horder, hr⟩
  · refine Or.inl ⟨hnot, fun fs' => ?_⟩
    rw [← staged_run, GlobalLock.Request.run]
    change (staged L P K db setup (requests i).1 (requests i).2).before = .inl reply at hb
    rw [hb]
  · refine Or.inr ⟨pre, post, horder, ?_⟩
    rw [← staged_run, serve_parts]
    exact hr

/-- What held the lock by some time did so before what held it later. -/
theorem serviceRun_extends (schedule' : List ι) : (serviceRun L P K db setup requests fs schedule).order <+:
    (serviceRun L P K db setup requests fs (schedule ++ schedule')).order := by
  rw [serviceRun, serviceRun, GlobalLock.interleave_append]
  exact GlobalLock.order_prefix _ _

theorem serviceRun_before {schedule' : List ι} {i : ι} {pre post : List ι}
    (hnot : i ∉ (serviceRun L P K db setup requests fs schedule).order)
    (h : (serviceRun L P K db setup requests fs (schedule ++ schedule')).order = pre ++ i :: post) :
    (serviceRun L P K db setup requests fs schedule).order <+: pre := by
  rw [serviceRun, GlobalLock.interleave_append] at h
  exact GlobalLock.prefix_before hnot h

/-- When all requests are answered, all of them might have come one after the other. -/
theorem answered_serialize {clients : List ι} (hnd : clients.Nodup)
    (hall : ∀ i ∈ clients, ∃ reply, (serviceRun L P K db setup requests fs schedule).phase i = .replied reply)
    (hrest : ∀ i ∉ clients, (serviceRun L P K db setup requests fs schedule).phase i = .start) :
    ∃ total : List ι, (serviceRun L P K db setup requests fs schedule).order <+: total ∧ total.Perm clients ∧
      (handleAll L P K db setup fs (total.map requests)).2 = (serviceRun L P K db setup requests fs schedule).shared ∧
      ∀ i ∈ clients, ∃ reply, (serviceRun L P K db setup requests fs schedule).phase i = .replied reply ∧
        ((requests i).1, reply) ∈ (handleAll L P K db setup fs (total.map requests)).1 := by
  obtain ⟨total, hpre, hperm, hstate, hreplies⟩ := serviceRun_linearized.serve_all hnd hall hrest
  refine ⟨total, hpre, hperm, by rw [serve_parts]; exact hstate, fun i hi => ?_⟩
  obtain ⟨reply, hreply⟩ := hall i hi
  refine ⟨reply, hreply, ?_⟩
  rw [serve_parts]
  exact List.mem_map.mpr ⟨(i, reply), (hreplies i reply).mpr hreply, rfl⟩

/-- **Whatever the interleaving, the requests might have come one after the other**: in the order in which they held
the lock, which only ever grows, each request is answered as its handler answers it in the files left by those before
it, and together they leave the same files.  When all are answered, some order of all of them does. -/
theorem requests_serialize (requests : ι → Request ω × List Fate) (fs : Fs) (schedule schedule' : List ι) :
    let early := serviceRun L P K db setup requests fs schedule
    let late := serviceRun L P K db setup requests fs (schedule ++ schedule')
    early.order <+: late.order ∧ late.order.Nodup ∧
      late.shared = (handleAll L P K db setup fs (late.order.map requests)).2 ∧
      (∀ i reply, late.phase i = .replied reply →
        (i ∉ late.order ∧ ∀ fs', handle L P K db setup (requests i).1 (requests i).2 fs' = (reply, fs')) ∨
          ∃ pre post, late.order = pre ++ i :: post ∧ reply = (handle L P K db setup (requests i).1 (requests i).2
            (handleAll L P K db setup fs (pre.map requests)).2).1) ∧
      ∀ clients : List ι, clients.Nodup → (∀ i ∈ clients, ∃ reply, late.phase i = .replied reply) →
        (∀ i ∉ clients, late.phase i = .start) →
        ∃ total : List ι, late.order <+: total ∧ total.Perm clients ∧
          (handleAll L P K db setup fs (total.map requests)).2 = late.shared ∧
          ∀ i ∈ clients, ∃ reply, late.phase i = .replied reply ∧
            ((requests i).1, reply) ∈ (handleAll L P K db setup fs (total.map requests)).1 := by
  exact ⟨serviceRun_extends _, serviceRun_linearized.nodup, serviceRun_shared, fun i reply h => serviceRun_reply h,
    fun clients hnd hall hrest => answered_serialize hnd hall hrest⟩

end Concurrent

end SxtEnterprise.Api
