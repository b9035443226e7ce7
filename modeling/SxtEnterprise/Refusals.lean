import SxtEnterprise.Snapshots

/-!
# Requests that leave no trace

Only `POST /tables` and `POST /tables/{table}/rows` change files, and when they answer that the client is at fault they
have changed nothing: the checks come first, and what comes after them ends in no error but the server's own
(`turnsAway_create`, `turnsAway_insert`).  So such requests can be struck out of any history
(`handleAll_struck`): the others are answered the same and leave the same files.
-/

namespace SxtEnterprise

open NumberedNames FaultyRun

namespace Db

variable {ρ κ σ : Type} {L : Libs ρ κ σ} {db : Db} {r : TableRef} {setup : σ}

/-- An error that is not the server's own comes before any change. -/
theorem turnsAway_createTable {schema : Schema} :
    (createTable L db r schema setup).TurnsAway fun d => ¬ DbError.Internal d := by
  rw [createTable_eq]
  refine Disk.reader_pathExists.still.bind_turnsAway fun present => ?_
  split
  · exact (Prog.Reader.fail _).still.turnsAway
  · have hrest : (do
        Disk.createDirAll (db.tableDir r)
        store L (db.tableDir r) 0 (RecordBatch.newEmpty schema) .commit
          (L.commitBatch (RecordBatch.newEmpty schema) 0 setup) : Io DbError Unit).Raises DbError.Internal :=
      (Disk.raises_createDirAll trivial).bind fun _ => raises_store (e := .commit) trivial
    exact hrest.turnsAway fun d hd => not_not_intro hd

theorem turnsAway_insert {batch : RecordBatch ρ} :
    (insert L db r batch setup).TurnsAway fun d => ¬ DbError.Internal d :=
  fun _ _ he hd => insert_turnedAway hd (Prod.ext he rfl)

end Db

namespace Api

variable {ρ κ σ ω : Type} (L : Libs ρ κ σ) (P : ProofSystem ρ κ σ) (K : Codecs ρ ω) (db : Db) (setup : σ)

/-- The status of a reply.  A handler that panics, or is killed, replies nothing. -/
def Reply.status : Reply ω → Option ℕ
  | .healthy (.ok status) | .created (.ok status) | .inserted (.ok status) => some status
  | .listed (.ok _) | .described (.ok _) | .answered (.ok _) => some 200
  | .listed (.err e) | .created (.err e) | .described (.err e) => some e.status
  | .inserted (.err e) => some e.status
  | .answered (.err e) => some e.status
  | _ => none

/-- The reply says that the client is at fault. -/
def Reply.refused (reply : Reply ω) : Bool := reply.status.any fun status => 400 ≤ status && status < 500

/-- The routes that change files. -/
def Request.writes : Request ω → Bool
  | .create _ _ | .insert _ _ => true
  | _ => false

/-- A request that may have changed files, by what it was answered. -/
def traces (done : Request ω × Reply ω) : Bool := done.1.writes && !done.2.refused

section Refused

variable {L P K db setup} {fs : Fs} {table : Name}

theorem turnsAway_create {columns : List ColumnJson} :
    (create L K db setup table columns).TurnsAway fun e => e.status < 500 := by
  refine (Prog.Reader.ofOutcome _).still.bind_turnsAway fun t => ?_
  have hlocked : (createLocked L db setup t.1 t.2).TurnsAway fun e => e.status < 500 := by
    apply Prog.TurnsAway.mapErr
    intro w d hd hlt
    apply Db.turnsAway_createTable w d hd
    cases d
    all_goals simp [TableError.status, DbError.Internal] at hlt ⊢
  exact hlocked.bind_pure

theorem turnsAway_insert {rows : List ω} :
    (insert L K db setup table rows).TurnsAway fun e => e.status < 500 := by
  refine (Prog.Reader.ofOutcome _).still.bind_turnsAway fun r => ?_
  have hlocked : (insertLocked L K db setup r rows).TurnsAway fun e => e.status < 500 := by
    refine (Db.reader_schema L r).mapErr.still.bind_turnsAway fun schema => ?_
    refine (Prog.Reader.ofOutcome _).still.bind_turnsAway fun batch => ?_
    apply Prog.TurnsAway.mapErr
    intro w d hd hlt
    apply Db.turnsAway_insert w d hd
    cases d
    all_goals simp [RowsError.status, DbError.Internal] at hlt ⊢
  exact hlocked.bind_pure

/-- **A request that leaves no trace** has changed nothing, whatever befell it. -/
theorem unchanged_of_not_traces {request : Request ω} {fates : List Fate}
    (h : traces (request, (handle L P K db setup request fates fs).1) = false) :
    (handle L P K db setup request fates fs).2 = fs := by
  cases request with
  | health => rfl
  | list => exact reader_list.state _
  | «show» table => exact reader_show.state _
  | query sql => exact reader_query.state _
  | create table columns =>
    show (create L K db setup table columns ⟨fs, fates, []⟩).2.state = fs
    change (!(Reply.created (create L K db setup table columns ⟨fs, fates, []⟩).1 : Reply ω).refused) = false at h
    rcases hrun : create L K db setup table columns ⟨fs, fates, []⟩ with ⟨status | e | _ | _, w'⟩
    all_goals rw [hrun] at h
    · obtain ⟨r, schema, -, -, rfl⟩ := create_eq_ok.mp hrun
      simp [Reply.refused, Reply.status] at h
    · have hlt : e.status < 500 := by
        simp [Reply.refused, Reply.status] at h
        exact h.2
      have hsame := turnsAway_create ⟨fs, fates, []⟩ e (by rw [hrun]) hlt
      rwa [hrun] at hsame
    all_goals simp [Reply.refused, Reply.status] at h
  | insert table rows =>
    show (insert L K db setup table rows ⟨fs, fates, []⟩).2.state = fs
    change (!(Reply.inserted (insert L K db setup table rows ⟨fs, fates, []⟩).1 : Reply ω).refused) = false at h
    rcases hrun : insert L K db setup table rows ⟨fs, fates, []⟩ with ⟨status | e | _ | _, w'⟩
    all_goals rw [hrun] at h
    · obtain ⟨r, -, -, rfl⟩ := insert_eq_ok.mp hrun
      simp [Reply.refused, Reply.status] at h
    · have hlt : e.status < 500 := by
        simp [Reply.refused, Reply.status] at h
        exact h.2
      have hsame := turnsAway_insert ⟨fs, fates, []⟩ e (by rw [hrun]) hlt
      rwa [hrun] at hsame
    all_goals simp [Reply.refused, Reply.status] at h

variable {ι : Type}

/-- **The requests that leave no trace can be struck out**: the others are answered the same, and leave the same
files. -/
theorem handleAll_struck (requests : ι → Request ω × List Fate) (order : List ι) :
    ∃ kept : List ι, kept.Sublist order ∧ handleAll L P K db setup fs (kept.map requests) =
      ((handleAll L P K db setup fs (order.map requests)).1.filter traces,
        (handleAll L P K db setup fs (order.map requests)).2) := by
  induction order generalizing fs with
  | nil => exact ⟨[], .slnil, rfl⟩
  | cons i order ih =>
    obtain ⟨kept, hsub, heq⟩ := @ih (handle L P K db setup (requests i).1 (requests i).2 fs).2
    rcases htraces : traces ((requests i).1, (handle L P K db setup (requests i).1 (requests i).2 fs).1) with _ | _
    · refine ⟨kept, hsub.cons i, ?_⟩
      show _ = (List.filter traces (((requests i).1, (handle L P K db setup (requests i).1 (requests i).2 fs).1) ::
        (handleAll L P K db setup (handle L P K db setup (requests i).1 (requests i).2 fs).2 (order.map requests)).1),
        (handleAll L P K db setup (handle L P K db setup (requests i).1 (requests i).2 fs).2 (order.map requests)).2)
      rw [List.filter_cons_of_neg (by rw [htraces]; simp), ← heq, unchanged_of_not_traces htraces]
    · refine ⟨i :: kept, hsub.cons_cons i, ?_⟩
      show (_ :: (handleAll L P K db setup _ (kept.map requests)).1, (handleAll L P K db setup _ (kept.map requests)).2) =
        (List.filter traces (((requests i).1, (handle L P K db setup (requests i).1 (requests i).2 fs).1) ::
        (handleAll L P K db setup (handle L P K db setup (requests i).1 (requests i).2 fs).2 (order.map requests)).1), _)
      rw [List.filter_cons_of_pos htraces, heq]
      rfl

/-- **Requests that were refused, and those that only read, leave no trace.**  However the requests interleave, and
whatever befalls each, the files are those left by some of the requests that held the lock, one after the other, in the
same order and with the same answers: the posts that were not answered with an error of the client's. -/
theorem refused_leave_no_trace [DecidableEq ι] (requests : ι → Request ω × List Fate) (fs : Fs) (schedule : List ι) :
    ∃ kept : List ι, kept.Sublist (serviceRun L P K db setup requests fs schedule).order ∧
      handleAll L P K db setup fs (kept.map requests) =
        ((handleAll L P K db setup fs
          ((serviceRun L P K db setup requests fs schedule).order.map requests)).1.filter traces,
        (serviceRun L P K db setup requests fs schedule).shared) := by
  rw [serviceRun_shared]
  exact handleAll_struck requests _

end Refused

end Api

end SxtEnterprise
