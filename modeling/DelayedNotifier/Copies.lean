import DelayedNotifier.System

/-!
# Every record the system holds is a copy of its row

`Save` is the only place a notification comes into being: it inserts a row, and every other
record in the system (a cache entry, a message body, a worker's decoded notification, a record
a `GetByID` returned, a row a statement committed) is a copy of a row made by
`toDomainModel`, by the JSON round trips of the cache and the broker, or by the worker
changing status, attempts and `sent_at`. `Stored` says a record agrees with the row under its
id on every other field, and every step keeps every record the system holds `Stored`
(`reach_traced`). The insert accepts only a recipient that matches the channel and no statement
writes the recipient columns, so every record the system reads has exactly one recipient,
matching its channel (`recipient_matches_channel`).
-/

namespace DelayedNotifier

/-- `n` agrees with the row stored under its id on every field that no write changes. -/
def Stored (t : Table) (n : Notification) : Prop :=
  ∃ r, t n.id = some r ∧ (toDomainModel r).fixed = n.fixed

def Table.Grows (t t' : Table) : Prop :=
  ∀ k r, t k = some r → ∃ r', t' k = some r' ∧ (toDomainModel r').fixed = (toDomainModel r).fixed

def Table.Fits (t : Table) (r : Row) : Prop :=
  ∀ r₀, t r.id = some r₀ → (toDomainModel r).fixed = (toDomainModel r₀).fixed

section Table

variable {t t' t'' : Table} {n n' : Notification} {r : Row}

theorem Table.Grows.refl (t : Table) : t.Grows t := fun _ r h => ⟨r, h, rfl⟩

theorem Table.Grows.trans (h : t.Grows t') (h' : t'.Grows t'') : t.Grows t'' := by
  intro k r hr
  obtain ⟨r₁, hr₁, e₁⟩ := h k r hr
  obtain ⟨r₂, hr₂, e₂⟩ := h' k r₁ hr₁
  exact ⟨r₂, hr₂, e₂.trans e₁⟩

theorem Table.grows_put (h : t.Fits r) : t.Grows (t.put r) := by
  intro k r₀ hk
  by_cases e : k = r.id
  · subst e; exact ⟨r, Table.put_self t r, h r₀ hk⟩
  · exact ⟨r₀, by rw [Table.put_apply, if_neg e]; exact hk, rfl⟩

theorem Stored.grow (h : Stored t n) (ht : t.Grows t') : Stored t' n := by
  obtain ⟨r, hr, e⟩ := h
  obtain ⟨r', hr', e'⟩ := ht _ r hr
  exact ⟨r', hr', e'.trans e⟩

theorem Stored.of_fixed (h : Stored t n) (e : n'.fixed = n.fixed) : Stored t n' := by
  obtain ⟨r, hr, e'⟩ := h
  have hid : n'.id = n.id := by simpa using congrArg Notification.id e
  exact ⟨r, hid ▸ hr, e'.trans e.symm⟩

theorem stored_put_self (t : Table) (r : Row) : Stored (t.put r) (toDomainModel r) :=
  ⟨r, Table.put_self t r, rfl⟩

end Table

structure Db.Traced (d : Db) : Prop where
  rows : ∀ k r, d.rows k = some r → r.id = k ∧ (toDomainModel r).recipientOk
  cache : ∀ k n, d.cache k = some n → n.id = k ∧ Stored d.rows n

theorem Db.Traced.recipientOk {d : Db} (h : d.Traced) {n : Notification} (hn : Stored d.rows n) :
    n.recipientOk := by
  obtain ⟨r, hr, e⟩ := hn
  rw [← Notification.recipientOk_fixed, ← e, Notification.recipientOk_fixed]
  exact (h.rows _ r hr).2

theorem Db.Traced.stored_row {d : Db} (h : d.Traced) {k : Nat} {r : Row}
    (hr : d.rows k = some r) : Stored d.rows (toDomainModel r) :=
  ⟨r, by show d.rows r.id = some r; rw [(h.rows k r hr).1]; exact hr, rfl⟩

theorem Db.Traced.cacheSet {d : Db} (h : d.Traced) (o : Outcome) {n : Notification}
    (hn : Stored d.rows n) : (d.cacheSet o n).Traced := by
  unfold Db.cacheSet; split
  · refine ⟨h.rows, fun k n' hk => ?_⟩
    simp only [Function.update_apply] at hk
    split_ifs at hk with e
    · cases hk; exact ⟨e.symm, hn⟩
    · exact h.cache k n' hk
  · exact h

theorem Db.Traced.cacheDelete {d : Db} (h : d.Traced) (o : Outcome) (id : Nat) :
    (d.cacheDelete o id).Traced := by
  unfold Db.cacheDelete; split
  · refine ⟨h.rows, fun k n' hk => ?_⟩
    simp only [Function.update_apply] at hk
    split_ifs at hk
    exact h.cache k n' hk
  · exact h

theorem Db.Traced.put {d : Db} (h : d.Traced) {r : Row} (hfit : d.rows.Fits r)
    (hnew : d.rows r.id = none → (toDomainModel r).recipientOk) : (d.put r).Traced := by
  refine ⟨fun k r' hk => ?_, fun k n hk => ?_⟩
  · simp only [Db.put_rows, Table.put_apply] at hk
    split_ifs at hk with e
    · cases hk
      refine ⟨e.symm, ?_⟩
      cases h₀ : d.rows r.id with
      | none => exact hnew h₀
      | some r₀ =>
        rw [← Notification.recipientOk_fixed, hfit r₀ h₀, Notification.recipientOk_fixed]
        exact (h.rows _ r₀ h₀).2
    · exact h.rows k r' hk
  · obtain ⟨hid, hs⟩ := h.cache k n hk
    exact ⟨hid, hs.grow (Table.grows_put hfit)⟩

section Repo

variable {c : RepoCall} {o : Outcome} {fresh : Nat} {now : Int} {d : Db}

theorem RepoCall.written_fits (hd : d.Traced) {r : Row} (h : c.written o fresh now d = some r) :
    d.rows.Fits r ∧ (d.rows r.id = none → (toDomainModel r).recipientOk) := by
  rcases RepoCall.written_cases h with ⟨n, p, -, hp, hc⟩ | ⟨n, -, hu⟩ | ⟨id, -, hc⟩
  · obtain ⟨hfree, -, hid, -⟩ := createNotification_ok hc
    refine ⟨fun r₀ h₀ => ?_, fun _ => createNotification_recipientOk hp hc⟩
    rw [hid, hfree] at h₀; cases h₀
  · obtain ⟨r₀, h₀, rfl⟩ := updateNotificationStatus_some hu
    have hid : r₀.id = (toDBUpdateParams n).id := (hd.rows _ r₀ h₀).1
    refine ⟨fun r₁ h₁ => ?_, fun h' => ?_⟩
    · change d.rows r₀.id = some r₁ at h₁; rw [hid, h₀] at h₁; cases h₁; rfl
    · change d.rows r₀.id = none at h'; rw [hid, h₀] at h'; cases h'
  · obtain ⟨r₀, h₀, rfl⟩ := cancelNotification_some hc
    have hid : r₀.id = id := (hd.rows _ r₀ h₀).1
    refine ⟨fun r₁ h₁ => ?_, fun h' => ?_⟩
    · change d.rows r₀.id = some r₁ at h₁; rw [hid, h₀] at h₁; cases h₁; rfl
    · change d.rows r₀.id = none at h'; rw [hid, h₀] at h'; cases h'

theorem RepoCall.step_traced (o : Outcome) (fresh : Nat) (now : Int) (hd : d.Traced) (hc : ∀ n, c.filling = some n → Stored d.rows n) :
    (c.step o fresh now d).1.Traced ∧ d.rows.Grows (c.step o fresh now d).1.rows ∧
      ∀ n, RepoCall.handed (c.step o fresh now d).2 = some n →
        Stored (c.step o fresh now d).1.rows n := by
  have hgrow : d.rows.Grows (c.step o fresh now d).1.rows := by
    rw [RepoCall.step_rows]; split
    · exact Table.grows_put (RepoCall.written_fits hd ‹_›).1
    · exact Table.Grows.refl _
  refine ⟨?_, hgrow, fun n hn => ?_⟩
  · rcases RepoCall.step_db o c with h | ⟨n, hn, h⟩ | ⟨k, h⟩ | ⟨r, hw, h⟩ <;> rw [h]
    · exact hd
    · exact hd.cacheSet o (hc n hn)
    · exact hd.cacheDelete o k
    · exact hd.put (RepoCall.written_fits hd hw).1 (RepoCall.written_fits hd hw).2
  · rcases RepoCall.handed_source o c hn with h | ⟨k, h⟩ | ⟨k, r, hr, rfl⟩ | ⟨r, hw, rfl⟩
    · exact (hc n h).grow hgrow
    · exact (hd.cache k n h).2.grow hgrow
    · exact (hd.stored_row hr).grow hgrow
    · rw [RepoCall.step_rows, hw]; exact stored_put_self _ r

end Repo

def WorkerPc.filling : WorkerPc → Option Notification
  | .revalidate c | .update c => c.filling
  | _ => none

def Job.held (j : Job) : List Notification := j.msg.body :: j.notification :: j.pc.filling.toList

def Call.held : Call → List Notification
  | .create c | .get c | .cancelLookup _ c | .cancelDelete _ c => c.filling.toList
  | .publish n => [n]

def Event.held : Event → List Notification
  | .send n _ _ | .publish n | .publishRetry n _ | .found n => [n]
  | .write r => [toDomainModel r]
  | .refuse m => [m.body]
  | .skip _ _ | .cancel _ | .ackedUnchecked _ => []

/-- Every record the system holds outside the table and the cache, and every record it has
read or sent. -/
def State.held (s : State) : List Notification :=
  (s.wait ++ s.retry ++ s.process).map (·.body) ++ s.jobs.flatMap Job.held ++
    s.calls.flatMap Call.held ++ s.log.flatMap Event.held

/-- The system invariant: the table and the cache are traced and every record held is a
copy of its row. -/
structure State.Traced (s : State) : Prop where
  db : s.db.Traced
  held : ∀ n ∈ s.held, Stored s.db.rows n

namespace State

variable {s : State} {n : Notification}

theorem mem_held :
    n ∈ s.held ↔ (∃ m ∈ s.wait ++ s.retry ++ s.process, m.body = n) ∨ (∃ j ∈ s.jobs, n ∈ j.held) ∨
      (∃ c ∈ s.calls, n ∈ c.held) ∨ ∃ e ∈ s.log, n ∈ e.held := by
  simp only [State.held, List.mem_append, List.mem_map, List.mem_flatMap, or_assoc]

theorem Traced.of_held {s' : State} (h : s.Traced) (hdb : s'.db = s.db)
    (hsub : ∀ n ∈ s'.held, n ∈ s.held ∨ Stored s.db.rows n) : s'.Traced :=
  ⟨hdb ▸ h.db, fun n hn => hdb ▸ (hsub n hn).elim (h.held n) id⟩

theorem Traced.job (h : s.Traced) {i : Nat} {j : Job} (hj : s.jobs[i]? = some j) :
    ∀ n ∈ j.held, Stored s.db.rows n :=
  fun n hn => h.held n (mem_held.2 (.inr (.inl ⟨j, List.getElem?_mem hj, hn⟩)))

theorem Traced.call (h : s.Traced) {i : Nat} {c : Call} (hc : s.calls[i]? = some c) :
    ∀ n ∈ c.held, Stored s.db.rows n :=
  fun n hn => h.held n (mem_held.2 (.inr (.inr (.inl ⟨c, List.getElem?_mem hc, hn⟩))))

theorem Traced.msg (h : s.Traced) {m : Msg} (hm : m ∈ s.wait ++ s.retry ++ s.process) :
    Stored s.db.rows m.body :=
  h.held _ (mem_held.2 (.inl ⟨m, hm, rfl⟩))

theorem Traced.record (h : s.Traced) {e : Event} (he : ∀ n ∈ e.held, Stored s.db.rows n) :
    (s.record e).Traced := by
  refine h.of_held rfl fun n hn => ?_
  simp only [mem_held, record_queues, record_jobs, record_calls, record_log, List.mem_append,
    List.mem_singleton] at hn ⊢
  rcases hn with hn | hn | hn | ⟨e', he' | rfl, hn⟩
  · exact .inl (.inl hn)
  · exact .inl (.inr (.inl hn))
  · exact .inl (.inr (.inr (.inl hn)))
  · exact .inl (.inr (.inr (.inr ⟨e', he', hn⟩)))
  · exact .inr (he n hn)

theorem Traced.setJob (h : s.Traced) (i : Nat) {j : Job} (hj : ∀ n ∈ j.held, Stored s.db.rows n) :
    (s.setJob i j).Traced := by
  refine h.of_held rfl fun n hn => ?_
  simp only [mem_held, setJob_queues, setJob_jobs, setJob_calls, setJob_log] at hn ⊢
  rcases hn with hn | ⟨j', hj', hn⟩ | hn | hn
  · exact .inl (.inl hn)
  · rcases List.mem_or_eq_of_mem_set hj' with hj' | rfl
    · exact .inl (.inr (.inl ⟨j', hj', hn⟩))
    · exact .inr (hj n hn)
  · exact .inl (.inr (.inr (.inl hn)))
  · exact .inl (.inr (.inr (.inr hn)))

theorem Traced.dropJob (h : s.Traced) (i : Nat) : (s.dropJob i).Traced := by
  refine h.of_held rfl fun n hn => .inl ?_
  simp only [mem_held, dropJob_queues, dropJob_jobs, dropJob_calls, dropJob_log] at hn ⊢
  rcases hn with hn | ⟨j', hj', hn⟩ | hn | hn
  · exact .inl hn
  · exact .inr (.inl ⟨j', List.mem_of_mem_eraseIdx hj', hn⟩)
  · exact .inr (.inr (.inl hn))
  · exact .inr (.inr (.inr hn))

theorem Traced.setCall (h : s.Traced) (i : Nat) {c : Call}
    (hc : ∀ n ∈ c.held, Stored s.db.rows n) : (s.setCall i c).Traced := by
  refine h.of_held rfl fun n hn => ?_
  simp only [mem_held, setCall_queues, setCall_jobs, setCall_calls, setCall_log] at hn ⊢
  rcases hn with hn | hn | ⟨c', hc', hn⟩ | hn
  · exact .inl (.inl hn)
  · exact .inl (.inr (.inl hn))
  · rcases List.mem_or_eq_of_mem_set hc' with hc' | rfl
    · exact .inl (.inr (.inr (.inl ⟨c', hc', hn⟩)))
    · exact .inr (hc n hn)
  · exact .inl (.inr (.inr (.inr hn)))

theorem Traced.dropCall (h : s.Traced) (i : Nat) : (s.dropCall i).Traced := by
  refine h.of_held rfl fun n hn => .inl ?_
  simp only [mem_held, dropCall_queues, dropCall_jobs, dropCall_calls, dropCall_log] at hn ⊢
  rcases hn with hn | hn | ⟨c', hc', hn⟩ | hn
  · exact .inl hn
  · exact .inr (.inl hn)
  · exact .inr (.inr (.inl ⟨c', List.mem_of_mem_eraseIdx hc', hn⟩))
  · exact .inr (.inr (.inr hn))

theorem Traced.requeue (h : s.Traced) {m : Msg} (hm : Stored s.db.rows m.body) :
    (s.requeue m).Traced := by
  refine h.of_held rfl fun n hn => ?_
  simp only [mem_held, requeue_queues, requeue_jobs, requeue_calls, requeue_log] at hn ⊢
  rcases hn with ⟨m', hm', rfl⟩ | hn
  · rw [← List.append_assoc, List.mem_append, List.mem_singleton] at hm'
    rcases hm' with hm' | rfl
    · exact .inl (.inl ⟨m', hm', rfl⟩)
    · exact .inr hm
  · exact .inl (.inr hn)

theorem Traced.setJob_pc (h : s.Traced) (i : Nat) {j : Job} {p : WorkerPc}
    (hj : ∀ n ∈ j.held, Stored s.db.rows n) (hp : ∀ n, p.filling = some n → Stored s.db.rows n) :
    (s.setJob i { j with pc := p }).Traced := by
  refine h.setJob i fun n hn => ?_
  simp only [Job.held, List.mem_cons, Option.mem_toList] at hn hj
  rcases hn with rfl | rfl | hn
  · exact hj _ (.inl rfl)
  · exact hj _ (.inr (.inl rfl))
  · exact hp n hn

theorem Traced.enqueue (h : s.Traced) (o : Outcome) (q : DelayQueue) {m : Msg}
    (hm : Stored s.db.rows m.body) : (s.enqueue o q m).Traced := by
  refine h.of_held (by simp) fun n hn => ?_
  rw [mem_held] at hn ⊢
  rcases hn with ⟨m', hm', rfl⟩ | hn
  · rcases State.mem_enqueue hm' with hm' | rfl
    · exact .inl (.inl ⟨m', hm', rfl⟩)
    · exact .inr hm
  · exact .inl (.inr (by simpa using hn))

theorem Traced.publishWait (h : s.Traced) (o : Outcome) {m : Msg}
    (hm : Stored s.db.rows m.body) : (s.publishWait o m).Traced := by
  rcases publishWait_eq s m o with e | ⟨-, -, e⟩ <;> rw [e]
  · exact h.enqueue o .wait hm
  · exact h.record (by simpa [Event.held] using hm)

theorem Traced.addCall (h : s.Traced) {c : Call} (hc : ∀ n ∈ c.held, Stored s.db.rows n) :
    ({ s with calls := s.calls ++ [c] } : State).Traced := by
  refine h.of_held rfl fun n hn => ?_
  simp only [mem_held, List.mem_append, List.mem_singleton] at hn ⊢
  rcases hn with hn | hn | ⟨c', hc' | rfl, hn⟩ | hn
  · exact .inl (.inl hn)
  · exact .inl (.inr (.inl hn))
  · exact .inl (.inr (.inr (.inl ⟨c', hc', hn⟩)))
  · exact .inr (hc n hn)
  · exact .inl (.inr (.inr (.inr hn)))

theorem Traced.repoStep (h : s.Traced) (o : Outcome) (fresh : Nat) (c : RepoCall)
    (hc : ∀ n, c.filling = some n → Stored s.db.rows n) :
    (s.repoStep o fresh c).1.Traced ∧ s.db.rows.Grows (s.repoStep o fresh c).1.db.rows ∧
      ∀ n, RepoCall.handed (s.repoStep o fresh c).2 = some n →
        Stored (s.repoStep o fresh c).1.db.rows n := by
  rw [repoStep_fst, repoStep_snd]
  obtain ⟨hdb, hg, hh⟩ := RepoCall.step_traced o fresh s.now h.db hc
  refine ⟨⟨hdb, fun n hn => ?_⟩, hg, hh⟩
  rw [mem_held] at hn
  rcases hn with hn | hn | hn | ⟨e, he, hn⟩
  · exact (h.held n (mem_held.2 (.inl hn))).grow hg
  · exact (h.held n (mem_held.2 (.inr (.inl hn)))).grow hg
  · exact (h.held n (mem_held.2 (.inr (.inr (.inl hn))))).grow hg
  · rw [List.mem_append] at he
    rcases he with he | he
    · exact (h.held n (mem_held.2 (.inr (.inr (.inr ⟨e, he, hn⟩))))).grow hg
    · simp only [List.mem_map, Option.mem_toList] at he
      obtain ⟨r, hr, rfl⟩ := he
      simp only [Event.held, List.mem_singleton] at hn
      subst hn
      rw [RepoCall.step_rows, hr]; exact stored_put_self _ r

theorem Traced.advanceJob (h : s.Traced) {i : Nat} {j : Job} (hj : s.jobs[i]? = some j)
    {o : Outcome} {s' : State} (hs : s.advanceJob i o j = some s') : s'.Traced := by
  have hjob := h.job hj
  have hfill : ∀ c, (j.pc = .revalidate c ∨ j.pc = .update c) → ∀ n, c.filling = some n →
      Stored s.db.rows n := by
    rintro c (hc | hc) n hn <;> exact hjob n (by simp [Job.held, hc, WorkerPc.filling, hn])
  cases hpc : j.pc with
  | revalidate c =>
    rcases hp : s.repoStep o 0 c with ⟨s₁, r⟩
    obtain ⟨h₁, hg, hr⟩ := h.repoStep o 0 c (hfill c (.inl hpc))
    simp only [hp] at h₁ hg hr
    have hjob₁ : ∀ n ∈ j.held, Stored s₁.db.rows n := fun n hn => (hjob n hn).grow hg
    rcases State.advanceJob_revalidate hpc hp hs with
      ⟨c', rfl, rfl⟩ | ⟨n, rfl, -, rfl⟩ | ⟨n, rfl, -, rfl⟩ | ⟨-, -, rfl⟩
    · exact h₁.setJob_pc i hjob₁ fun n hn => hr n hn
    · refine (h₁.record ?_).setJob_pc i hjob₁ ?_ <;> simp [Event.held, WorkerPc.filling, hr n rfl]
    · refine ((h₁.record ?_).record ?_).setJob_pc i hjob₁ ?_ <;>
        simp [Event.held, WorkerPc.filling, hr n rfl]
    · refine (h₁.record ?_).setJob_pc i hjob₁ ?_ <;> simp [Event.held, WorkerPc.filling]
  | send => exact absurd hpc (State.advanceJob_pc hs)
  | update c =>
    rcases hp : s.repoStep o 0 c with ⟨s₁, r⟩
    obtain ⟨h₁, hg, hr⟩ := h.repoStep o 0 c (hfill c (.inr hpc))
    simp only [hp] at h₁ hg hr
    have hjob₁ : ∀ n ∈ j.held, Stored s₁.db.rows n := fun n hn => (hjob n hn).grow hg
    rcases State.advanceJob_update hpc hp hs with ⟨c', rfl, rfl⟩ | ⟨e, rfl, rfl⟩ | ⟨-, -, rfl⟩
    · exact h₁.setJob_pc i hjob₁ fun n hn => hr n hn
    all_goals exact h₁.setJob_pc i hjob₁ (by simp [WorkerPc.filling])
  | publishRetry =>
    have hn : Stored s.db.rows j.notification := hjob _ (by simp [Job.held])
    have h₁ := h.enqueue o .retry (m := publishRetryMsg s.now j.notification
      (calculateExponentialBackoff j.notification.attempts)) hn
    have hjob₁ : ∀ n ∈ j.held, Stored (s.enqueue o .retry (publishRetryMsg s.now j.notification
        (calculateExponentialBackoff j.notification.attempts))).db.rows n := by
      simpa only [State.enqueue_db] using hjob
    rcases State.advanceJob_publishRetry hpc hs with ⟨-, rfl⟩ | ⟨-, rfl⟩
    · refine (h₁.record ?_).setJob_pc i hjob₁ ?_ <;> simp [Event.held, WorkerPc.filling, hn]
    · exact h₁.setJob_pc i hjob₁ (by simp [WorkerPc.filling])
  | ack =>
    rcases State.advanceJob_ack hpc hs with ⟨-, rfl⟩ | ⟨-, rfl⟩
    · exact h.dropJob i
    · exact (h.dropJob i).requeue (hjob _ (by simp [Job.held]))
  | ackUnchecked =>
    rcases State.advanceJob_ackUnchecked hpc hs with ⟨-, rfl⟩ | ⟨-, rfl⟩
    · exact (h.record (by simp [Event.held])).dropJob i
    · exact (h.dropJob i).requeue (hjob _ (by simp [Job.held]))
  | nack =>
    rw [State.advanceJob_nack hpc hs]
    exact (h.dropJob i).requeue (hjob _ (by simp [Job.held]))

theorem Traced.sendJob (h : s.Traced) {i : Nat} {j : Job} (hj : s.jobs[i]? = some j)
    {ok : Bool} {s' : State} (hs : s.sendJob i ok j = some s') : s'.Traced := by
  have hjob := h.job hj
  have hn : Stored s.db.rows j.notification := hjob _ (by simp [Job.held])
  have h₁ : (s.record (.send j.notification s.now ok)).Traced :=
    h.record (by simpa [Event.held] using hn)
  have hnew : ∀ (n' : Notification) (p : WorkerPc), n'.fixed = j.notification.fixed →
      p.filling = none →
        ((s.record (.send j.notification s.now ok)).setJob i ⟨j.msg, n', p⟩).Traced := by
    intro n' p hf hp
    refine h₁.setJob i fun x hx => ?_
    simp only [Job.held, hp, Option.toList, List.mem_cons, List.not_mem_nil, or_false] at hx
    rcases hx with rfl | rfl
    · exact hjob _ (by simp [Job.held])
    · exact hn.of_fixed hf
  obtain ⟨-, ⟨-, rfl⟩ | ⟨-, -, rfl⟩ | ⟨-, -, rfl⟩⟩ := State.sendJob_cases hs <;>
    exact hnew _ _ rfl rfl

theorem Traced.advanceCall (h : s.Traced) {i : Nat} {c : Call} (hc : s.calls[i]? = some c)
    (o : Outcome) (fresh : Nat) : (s.advanceCall i o fresh c).Traced := by
  have hcall := h.call hc
  have hrepo : ∀ c' : RepoCall, (∀ n ∈ c'.filling.toList, Stored s.db.rows n) → ∀ s₁ r,
      s.repoStep o fresh c' = (s₁, r) →
        s₁.Traced ∧ ∀ n, RepoCall.handed r = some n → Stored s₁.db.rows n := by
    intro c' hc' s₁ r hp
    obtain ⟨h₁, -, hr⟩ := h.repoStep o fresh c' fun n hn => hc' n (by simp [hn])
    simp only [hp] at h₁ hr
    exact ⟨h₁, hr⟩
  have hset : ∀ (s₁ : State) (k : RepoCall → Call) (c' : RepoCall), s₁.Traced →
      (∀ n, c'.filling = some n → Stored s₁.db.rows n) → (k c').held = c'.filling.toList →
      (s₁.setCall i (k c')).Traced := fun s₁ k c' h₁ hr hk =>
    h₁.setCall i fun n hn => hr n (by simpa [hk] using hn)
  cases c with
  | create c =>
    rcases hp : s.repoStep o fresh c with ⟨s₁, r⟩
    obtain ⟨h₁, hr⟩ := hrepo c hcall s₁ r hp
    rcases State.advanceCall_create (i := i) hp with ⟨c', rfl, he⟩ | ⟨n, rfl, he⟩ | ⟨-, -, he⟩ <;>
      rw [he]
    · exact hset s₁ Call.create c' h₁ hr rfl
    · exact h₁.setCall i fun x hx => hr x (by simpa [Call.held, RepoCall.handed, eq_comm] using hx)
    · exact h₁.dropCall i
  | publish n =>
    have hn := hcall n (by simp [Call.held])
    have h₁ := h.publishWait o (m := publishMsg s.now n) hn
    rw [State.advanceCall_publish]
    split_ifs
    · exact h.dropCall i
    · exact (h₁.record (by simpa [Event.held] using hn)).dropCall i
    · exact h₁.dropCall i
  | get c =>
    rcases hp : s.repoStep o fresh c with ⟨s₁, r⟩
    obtain ⟨h₁, hr⟩ := hrepo c hcall s₁ r hp
    rcases State.advanceCall_get (i := i) hp with ⟨c', rfl, he⟩ | ⟨n, rfl, he⟩ | ⟨-, -, he⟩ <;>
      rw [he]
    · exact hset s₁ Call.get c' h₁ hr rfl
    · exact (h₁.record (by simpa [Event.held] using hr n rfl)).dropCall i
    · exact h₁.dropCall i
  | cancelLookup id c =>
    rcases hp : s.repoStep o fresh c with ⟨s₁, r⟩
    obtain ⟨h₁, hr⟩ := hrepo c hcall s₁ r hp
    rcases State.advanceCall_cancelLookup (i := i) hp with
      ⟨c', rfl, he⟩ | ⟨n, rfl, -, he⟩ | ⟨n, rfl, -, he⟩ | ⟨-, -, he⟩ <;> rw [he]
    · exact hset s₁ (Call.cancelLookup id) c' h₁ hr rfl
    · exact (h₁.record (by simpa [Event.held] using hr n rfl)).setCall i
        (by simp [Call.held, RepoCall.filling])
    · exact (h₁.record (by simpa [Event.held] using hr n rfl)).dropCall i
    · exact h₁.dropCall i
  | cancelDelete id c =>
    rcases hp : s.repoStep o fresh c with ⟨s₁, r⟩
    obtain ⟨h₁, hr⟩ := hrepo c hcall s₁ r hp
    rcases State.advanceCall_cancelDelete (i := i) hp with ⟨c', rfl, he⟩ | ⟨-, he⟩ | ⟨-, -, he⟩ <;>
      rw [he]
    · exact hset s₁ (Call.cancelDelete id) c' h₁ hr rfl
    · exact (h₁.record (by simp [Event.held])).dropCall i
    · exact h₁.dropCall i

theorem Traced.setQueue (h : s.Traced) {q : DelayQueue} {m : Msg} {rest : List Msg}
    (hq : s.queue q = m :: rest) : (s.setQueue q rest).Traced := by
  refine h.of_held (by cases q <;> rfl) fun n hn => .inl ?_
  rw [mem_held] at hn ⊢
  rcases hn with ⟨m', hm', rfl⟩ | hn
  · exact .inl ⟨m', State.mem_setQueue hq hm', rfl⟩
  · exact .inr (by cases q <;> exact hn)

theorem Traced.deliver (h : s.Traced) {i : Nat} {m : Msg} (hm : s.process[i]? = some m) :
    ({ s with process := s.process.eraseIdx i,
              jobs := s.jobs ++ [⟨m, m.body, .revalidate (.getByID m.body.id)⟩] } : State).Traced := by
  have hb := h.msg (m := m) (by simp [List.getElem?_mem hm])
  refine h.of_held rfl fun n hn => ?_
  rw [mem_held] at hn ⊢
  rcases hn with ⟨m', hm', rfl⟩ | ⟨j, hj, hn⟩ | hn | hn
  · simp only [List.mem_append] at hm' ⊢
    exact .inl (.inl ⟨m', hm'.imp_right List.mem_of_mem_eraseIdx, rfl⟩)
  · rw [List.mem_append, List.mem_singleton] at hj
    rcases hj with hj | rfl
    · exact .inl (.inr (.inl ⟨j, hj, hn⟩))
    · simp only [Job.held, WorkerPc.filling, RepoCall.filling, Option.toList, List.mem_cons,
        List.not_mem_nil, or_false, or_self] at hn
      subst hn; exact .inr hb
  · exact .inl (.inr (.inr (.inl hn)))
  · exact .inl (.inr (.inr (.inr hn)))

end State

theorem traced_step {s s' : State} (h : s.Traced) {a : Action} (hs : s.step a = some s') :
    s'.Traced := by
  cases a with
  | create uuid req address chatID =>
    simp only [State.step] at hs
    split at hs <;> cases hs
    · exact h.addCall (by simp [Call.held, RepoCall.filling])
    · exact h
  | get id => cases hs; exact h.addCall (by simp [Call.held, RepoCall.filling])
  | cancel id => cases hs; exact h.addCall (by simp [Call.held, RepoCall.filling])
  | call i o fresh =>
    obtain ⟨c, hc, rfl⟩ := Option.map_eq_some'.1 hs
    exact h.advanceCall hc o fresh
  | deliver i =>
    obtain ⟨m, hm, rfl⟩ := Option.map_eq_some'.1 hs
    exact h.deliver hm
  | job i o =>
    obtain ⟨j, hj, hs⟩ := Option.bind_eq_some.1 hs
    exact h.advanceJob hj hs
  | send i ok =>
    obtain ⟨j, hj, hs⟩ := Option.bind_eq_some.1 hs
    exact h.sendJob hj hs
  | crashJob i =>
    obtain ⟨j, hj, rfl⟩ := Option.map_eq_some'.1 hs
    exact (h.dropJob i).requeue (h.job hj _ (by simp [Job.held]))
  | crashCall i =>
    obtain ⟨c, -, rfl⟩ := Option.map_eq_some'.1 hs
    exact h.dropCall i
  | deadLetter q =>
    obtain ⟨⟨m, rest⟩, hd, rfl⟩ := Option.map_eq_some'.1 hs
    obtain ⟨hq, -⟩ := deadLetter_some hd
    have hm : m ∈ s.wait ++ s.retry ++ s.process := by cases q <;> simp_all [State.queue]
    exact (h.setQueue hq).requeue (by cases q <;> exact h.msg hm)
  | tick δ => cases hs; exact h.of_held rfl fun n hn => .inl hn
  | expire id =>
    cases hs
    exact ⟨h.db.cacheDelete .ok id, fun n hn => by rw [Db.cacheDelete_rows]; exact h.held n hn⟩

theorem State.traced_init (now : Int) : (State.init now).Traced :=
  ⟨⟨fun _ _ h => (by cases h), fun _ _ h => (by cases h)⟩, by simp [State.held, State.init]⟩

theorem reach_traced {P : State → Action → Bool} {s : State} (h : Reach P s) : s.Traced := by
  induction h with
  | init now => exact State.traced_init now
  | next _ _ hs ih => exact traced_step ih hs

/-- Every record a `GetByID` has returned, every message on the three queues, and every
message a worker has decoded, with the notification it is working on, has exactly one
recipient, and it matches its channel. -/
theorem recipient_matches_channel {s : State} (h : Reach anyRun s) :
    (∀ n, Event.found n ∈ s.log → n.recipientOk) ∧
    (∀ m ∈ s.wait ++ s.retry ++ s.process, m.body.recipientOk) ∧
    ∀ j ∈ s.jobs, j.msg.body.recipientOk ∧ j.notification.recipientOk := by
  have ht := reach_traced h
  have hjob : ∀ j ∈ s.jobs, ∀ n ∈ j.held, n.recipientOk := fun j hj n hn =>
    ht.db.recipientOk (ht.held n (State.mem_held.2 (.inr (.inl ⟨j, hj, hn⟩))))
  refine ⟨fun n hn => ?_, fun m hm => ht.db.recipientOk (ht.msg hm), fun j hj =>
    ⟨hjob j hj _ (by simp [Job.held]), hjob j hj _ (by simp [Job.held])⟩⟩
  exact ht.db.recipientOk (ht.held n (State.mem_held.2 (.inr (.inr (.inr ⟨_, hn, by
    simp [Event.held]⟩)))))

private def telegramRequest : CreateRequest := ⟨"42", "telegram", "s", "", 0, none⟩

private def createdAndTaken : List Action :=
  [.create 0 telegramRequest (.error "") (.ok 42), .call 0 .ok 1, .call 0 .ok 0, .call 0 .ok 0,
   .deadLetter .wait, .deliver 0]

set_option maxRecDepth 20000 in
theorem recipient_matches_channel_after_delivery :
    ∃ s, Reach anyRun s ∧ s.jobs.length = 1 ∧
      (∀ n, Event.found n ∈ s.log → n.recipientOk) ∧
      (∀ m ∈ s.wait ++ s.retry ++ s.process, m.body.recipientOk) ∧
      ∀ j ∈ s.jobs, j.msg.body.recipientOk ∧ j.notification.recipientOk := by
  have h : ((State.init 0).run anyRun createdAndTaken).map (·.jobs.length) = some 1 := by decide
  cases hr : (State.init 0).run anyRun createdAndTaken with
  | none => simp [hr] at h
  | some s =>
    simp only [hr, Option.map_some', Option.some.injEq] at h
    exact ⟨s, reach_run (.init 0) hr, h, recipient_matches_channel (reach_run (.init 0) hr)⟩

end DelayedNotifier
