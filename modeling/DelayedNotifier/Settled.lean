import DelayedNotifier.Copies

/-!
# Rows leave `scheduled` for good, and every thread knows where it is

Only three statements write a row: the insert of `Save`, the worker's `UpdateNotificationStatus`,
which writes the status the worker has just decided on (`sent` or `failed`), and
`CancelNotification`, which writes `cancelled`. So a row that has left `scheduled` never comes
back (`Table.Keeps`), and a record read as anything but `scheduled` was read from such a row
(`Table.Vouches`). `State.Sound` adds what each thread holds at each place it can be: a worker
revalidates the id of the message it holds, updates the record it decided on, and invalidates
the entry of a row it wrote; a cancel that returned nil wrote its row. Every step keeps it
(`reach_sound`), and the later modules read their facts from it.
-/

namespace DelayedNotifier

def Table.Settled (t : Table) (k : Nat) : Prop := ∃ r, t k = some r ∧ r.status ≠ .scheduled

/-- A record read as anything but `scheduled` was read from a row that has left `scheduled`. -/
def Table.Vouches (t : Table) (n : Notification) : Prop := n.status ≠ .scheduled → t.Settled n.id

def Table.Keeps (t t' : Table) : Prop := ∀ k, t.Settled k → t'.Settled k

section Table

variable {t t' t'' : Table} {n : Notification} {r : Row} {k : Nat}

theorem Table.Keeps.refl (t : Table) : t.Keeps t := fun _ h => h

theorem Table.Keeps.trans (h : t.Keeps t') (h' : t'.Keeps t'') : t.Keeps t'' :=
  fun k hk => h' k (h k hk)

theorem Table.Vouches.keep (h : t.Vouches n) (hk : t.Keeps t') : t'.Vouches n :=
  fun hn => hk _ (h hn)

theorem Table.keeps_put (h : ∀ r₀, t r.id = some r₀ → r.status ≠ .scheduled) :
    t.Keeps (t.put r) := by
  rintro k ⟨r₀, h₀, hs⟩
  by_cases e : k = r.id
  · subst e; exact ⟨r, Table.put_self t r, h r₀ h₀⟩
  · exact ⟨r₀, by rw [Table.put_apply, if_neg e]; exact h₀, hs⟩

theorem Table.vouches_row (hk : ∀ k r, t k = some r → r.id = k) (h : t k = some r) :
    t.Vouches (toDomainModel r) :=
  fun hs => ⟨r, by show t r.id = some r; rw [hk k r h]; exact h, hs⟩

end Table

def RepoCall.Reverts : RepoCall → Prop
  | .update n => n.status = .scheduled
  | _ => False

section Repo

variable {c : RepoCall} {o : Outcome} {fresh : Nat} {now : Int} {d : Db}

theorem RepoCall.step_keeps (o : Outcome) (fresh : Nat) (now : Int) (hc : ¬c.Reverts) :
    d.rows.Keeps (c.step o fresh now d).1.rows := by
  rw [RepoCall.step_rows]
  split
  · rename_i r hw
    refine Table.keeps_put fun r₀ h₀ => ?_
    rcases RepoCall.written_cases hw with ⟨n, p, -, -, hcr⟩ | ⟨n, rfl, hu⟩ | ⟨id, -, hcn⟩
    · obtain ⟨hfree, -, hid, -⟩ := createNotification_ok hcr
      rw [hid, hfree] at h₀; cases h₀
    · obtain ⟨r₁, -, rfl⟩ := updateNotificationStatus_some hu
      exact hc
    · obtain ⟨r₁, -, rfl⟩ := cancelNotification_some hcn
      simp
  · exact Table.Keeps.refl _

theorem RepoCall.step_vouches (hk : ∀ k r, d.rows k = some r → r.id = k)
    (hcache : ∀ k n, d.cache k = some n → d.rows.Vouches n)
    (hfill : ∀ n, c.filling = some n → d.rows.Vouches n)
    (hkeep : d.rows.Keeps (c.step o fresh now d).1.rows) :
    (∀ k n, (c.step o fresh now d).1.cache k = some n → (c.step o fresh now d).1.rows.Vouches n) ∧
      ∀ n, RepoCall.handed (c.step o fresh now d).2 = some n →
        (c.step o fresh now d).1.rows.Vouches n := by
  refine ⟨fun k n hn => ?_, fun n hn => ?_⟩
  · rcases RepoCall.step_db o c with h | ⟨m, hm, h⟩ | ⟨k', h⟩ | ⟨r, -, h⟩ <;> rw [h] at hn hkeep ⊢
    · exact hcache k n hn
    · simp only [Db.cacheSet, Db.cacheSet_rows] at hn hkeep ⊢
      split_ifs at hn
      · simp only [Function.update_apply] at hn
        split_ifs at hn
        · cases hn; exact (hfill n hm).keep hkeep
        · exact (hcache k n hn).keep hkeep
      · exact (hcache k n hn).keep hkeep
    · simp only [Db.cacheDelete, Db.cacheDelete_rows] at hn hkeep ⊢
      split_ifs at hn
      · simp only [Function.update_apply] at hn
        split_ifs at hn
        exact (hcache k n hn).keep hkeep
      · exact (hcache k n hn).keep hkeep
    · exact (hcache k n hn).keep hkeep
  · rcases RepoCall.handed_source o c hn with h | ⟨k, h⟩ | ⟨k, r, hr, rfl⟩ | ⟨r, hw, rfl⟩
    · exact (hfill n h).keep hkeep
    · exact (hcache k n h).keep hkeep
    · exact (Table.vouches_row hk hr).keep hkeep
    · intro hs
      refine ⟨r, ?_, hs⟩
      rw [RepoCall.step_rows, hw]; exact Table.put_self _ r

end Repo

/-- What a worker holds at each place in `handleMessage`, for the notification `n` it
decoded: it revalidates `n`'s id, updates with the record it decided on, which is no longer
`scheduled`, and invalidates the entry of the row it wrote. -/
def WorkerPc.Shaped (t : Table) (n : Notification) : WorkerPc → Prop
  | .revalidate (.getByID k) => k = n.id
  | .revalidate (.getByIDPrimary k) => k = n.id
  | .revalidate (.getByIDFill m) => m.id = n.id ∧ t.Vouches m
  | .revalidate _ => False
  | .publishRetry => n.attempts < maxRetries
  | .send | .ack | .ackUnchecked | .nack => True
  | .update (.update m) => m = n ∧ n.status ≠ .scheduled
  | .update (.updateInvalidate k) => k = n.id ∧ t.Settled k
  | .update _ => False

def Job.Shaped (t : Table) (j : Job) : Prop :=
  j.notification.id = j.msg.body.id ∧ j.pc.Shaped t j.notification

def Call.Shaped (t : Table) : Call → Prop
  | .create c | .get c | .cancelLookup _ c =>
    ¬c.Reverts ∧ ∀ n, c.filling = some n → t.Vouches n
  | .cancelDelete id c => c = .delete id ∨ (c = .deleteInvalidate id ∧ t.Settled id)
  | .publish _ => True

section Shapes

variable {t t' : Table} {n : Notification}

theorem WorkerPc.Shaped.keep {p : WorkerPc} (h : p.Shaped t n) (hk : t.Keeps t') :
    p.Shaped t' n := by
  cases p with
  | revalidate c =>
    cases c with
    | getByIDFill m => exact ⟨h.1, h.2.keep hk⟩
    | _ => exact h
  | update c =>
    cases c with
    | updateInvalidate k => exact ⟨h.1, hk _ h.2⟩
    | _ => exact h
  | _ => exact h

theorem Job.Shaped.keep {j : Job} (h : j.Shaped t) (hk : t.Keeps t') : j.Shaped t' :=
  ⟨h.1, h.2.keep hk⟩

theorem Call.Shaped.keep {c : Call} (h : c.Shaped t) (hk : t.Keeps t') : c.Shaped t' := by
  cases c with
  | create c | get c | cancelLookup _ c => exact ⟨h.1, fun n hn => (h.2 n hn).keep hk⟩
  | cancelDelete id c => exact h.imp_right fun h => ⟨h.1, hk _ h.2⟩
  | publish n => trivial

theorem WorkerPc.Shaped.not_reverts {p : WorkerPc} {c : RepoCall} (h : p.Shaped t n)
    (hc : p = .revalidate c ∨ p = .update c) : ¬c.Reverts := by
  rcases hc with rfl | rfl <;> rcases c with _ | _ | _ | _ | _ | m | _ | _ | _ <;>
    simp_all [WorkerPc.Shaped, RepoCall.Reverts]

end Shapes

/-- The statuses the system holds are honest: the cache and every held record vouch for
their statuses, every thread is shaped, and every id whose cancel returned has left
`scheduled`. -/
structure State.Vouched (s : State) : Prop where
  cache : ∀ k n, s.db.cache k = some n → s.db.rows.Vouches n
  jobs : ∀ j ∈ s.jobs, j.Shaped s.db.rows
  calls : ∀ c ∈ s.calls, c.Shaped s.db.rows
  cancelled : ∀ id, Event.cancel id ∈ s.log → s.db.rows.Settled id

namespace State

variable {s : State}

theorem Vouched.record (h : s.Vouched) {e : Event}
    (hc : ∀ id, e = .cancel id → s.db.rows.Settled id) : (s.record e).Vouched := by
  refine ⟨h.cache, h.jobs, h.calls, fun id hid => ?_⟩
  simp only [record_log, List.mem_append, List.mem_singleton] at hid
  exact hid.elim (h.cancelled id) (fun e' => hc id e'.symm)

theorem Vouched.record_quiet (h : s.Vouched) {e : Event} (hc : ∀ id, e ≠ .cancel id) :
    (s.record e).Vouched :=
  h.record fun id he => absurd he (hc id)

theorem Vouched.setJob (h : s.Vouched) (i : Nat) {j : Job} (hj : j.Shaped s.db.rows) :
    (s.setJob i j).Vouched := by
  refine ⟨h.cache, fun j' hj' => ?_, h.calls, h.cancelled⟩
  rcases List.mem_or_eq_of_mem_set hj' with hj' | rfl
  · exact h.jobs j' hj'
  · exact hj

theorem Vouched.dropJob (h : s.Vouched) (i : Nat) : (s.dropJob i).Vouched :=
  ⟨h.cache, fun j hj => h.jobs j (List.mem_of_mem_eraseIdx hj), h.calls, h.cancelled⟩

theorem Vouched.setCall (h : s.Vouched) (i : Nat) {c : Call} (hc : c.Shaped s.db.rows) :
    (s.setCall i c).Vouched := by
  refine ⟨h.cache, h.jobs, fun c' hc' => ?_, h.cancelled⟩
  rcases List.mem_or_eq_of_mem_set hc' with hc' | rfl
  · exact h.calls c' hc'
  · exact hc

theorem Vouched.dropCall (h : s.Vouched) (i : Nat) : (s.dropCall i).Vouched :=
  ⟨h.cache, h.jobs, fun c hc => h.calls c (List.mem_of_mem_eraseIdx hc), h.cancelled⟩

theorem Vouched.requeue (h : s.Vouched) (m : Msg) : (s.requeue m).Vouched :=
  ⟨h.cache, h.jobs, h.calls, h.cancelled⟩

theorem Vouched.addCall (h : s.Vouched) {c : Call} (hc : c.Shaped s.db.rows) :
    ({ s with calls := s.calls ++ [c] } : State).Vouched := by
  refine ⟨h.cache, h.jobs, fun c' hc' => ?_, h.cancelled⟩
  rcases List.mem_append.1 hc' with hc' | hc'
  · exact h.calls c' hc'
  · rw [List.mem_singleton.1 hc']; exact hc

theorem Vouched.enqueue (h : s.Vouched) (o : Outcome) (q : DelayQueue) (m : Msg) :
    (s.enqueue o q m).Vouched := by
  unfold State.enqueue
  split
  · exact ⟨by cases q <;> exact h.cache, by cases q <;> exact h.jobs,
      by cases q <;> exact h.calls, by cases q <;> exact h.cancelled⟩
  · exact h

theorem Vouched.publishWait (h : s.Vouched) (o : Outcome) (m : Msg) :
    (s.publishWait o m).Vouched := by
  rcases publishWait_eq s m o with e | ⟨-, -, e⟩ <;> rw [e]
  · exact h.enqueue o .wait m
  · exact h.record_quiet (by simp)

theorem Vouched.repoStep (h : s.Vouched) (hk : ∀ k r, s.db.rows k = some r → r.id = k)
    (o : Outcome) (fresh : Nat) (c : RepoCall) (hc : ¬c.Reverts)
    (hv : ∀ n, c.filling = some n → s.db.rows.Vouches n) :
    (s.repoStep o fresh c).1.Vouched ∧ s.db.rows.Keeps (s.repoStep o fresh c).1.db.rows ∧
      ∀ n, RepoCall.handed (s.repoStep o fresh c).2 = some n →
        (s.repoStep o fresh c).1.db.rows.Vouches n := by
  have hkeep := RepoCall.step_keeps (d := s.db) o fresh s.now hc
  obtain ⟨hcache, hh⟩ := RepoCall.step_vouches hk h.cache hv hkeep
  rw [repoStep_fst, repoStep_snd]
  refine ⟨⟨hcache, fun j hj => (h.jobs j hj).keep hkeep, fun c' hc' => (h.calls c' hc').keep hkeep,
    fun id hid => ?_⟩, hkeep, hh⟩
  simp only [List.mem_append, List.mem_map, Option.mem_toList] at hid
  rcases hid with hid | ⟨r, -, hr⟩
  · exact hkeep id (h.cancelled id hid)
  · cases hr

theorem Vouched.setQueue (h : s.Vouched) (q : DelayQueue) (l : List Msg) :
    (s.setQueue q l).Vouched := by
  cases q <;> exact ⟨h.cache, h.jobs, h.calls, h.cancelled⟩

theorem Vouched.advanceJob (h : s.Vouched) (ht : s.Traced) {i : Nat} {j : Job}
    (hj : s.jobs[i]? = some j) {o : Outcome} {s' : State} (hs : s.advanceJob i o j = some s') :
    s'.Vouched := by
  have hk : ∀ k r, s.db.rows k = some r → r.id = k := fun k r hr => (ht.db.rows k r hr).1
  obtain ⟨hid, hsh⟩ := h.jobs j (List.getElem?_mem hj)
  have quiet : ∀ (t : Table) (p : WorkerPc), (p = .send ∨ p = .ack ∨ p = .ackUnchecked ∨
      p = .nack) → ({ j with pc := p } : Job).Shaped t := by
    rintro t p (rfl | rfl | rfl | rfl) <;> exact ⟨hid, trivial⟩
  cases hpc : j.pc with
  | revalidate c =>
    have hrev := hsh.not_reverts (.inl hpc)
    rw [hpc] at hsh
    have hfill : ∀ n, c.filling = some n → s.db.rows.Vouches n := by
      intro n hn
      cases c <;> simp only [RepoCall.filling, Option.some.injEq, reduceCtorEq] at hn
      · subst hn; exact hsh.2
      · exact absurd hsh id
    rcases hp : s.repoStep o 0 c with ⟨s₁, r⟩
    obtain ⟨h₁, hkeep, hr⟩ := h.repoStep hk o 0 c hrev hfill
    have hstep : (c.step o 0 s.now s.db).2 = r := by rw [← repoStep_snd, hp]
    simp only [hp] at h₁ hkeep hr
    rcases State.advanceJob_revalidate hpc hp hs with
      ⟨c', rfl, rfl⟩ | ⟨n, rfl, -, rfl⟩ | ⟨n, rfl, -, rfl⟩ | ⟨-, -, rfl⟩
    · refine h₁.setJob i ⟨hid, ?_⟩
      rcases RepoCall.step_inl o c hstep with ⟨k, rfl, rfl⟩ | ⟨k, r, rfl, hr', rfl⟩ |
        ⟨n, r, rfl, -⟩ | ⟨n, r, rfl, -⟩ | ⟨k, r, rfl, -⟩
      · exact hsh
      · exact ⟨(hk k r hr').trans hsh, hr _ rfl⟩
      all_goals exact absurd hsh id
    · exact (h₁.record_quiet (by simp)).setJob i (quiet _ _ (.inl rfl))
    · exact ((h₁.record_quiet (by simp)).record_quiet (by simp)).setJob i
        (quiet _ _ (.inr (.inl rfl)))
    · exact (h₁.record_quiet (by simp)).setJob i (quiet _ _ (.inr (.inr (.inl rfl))))
  | send => exact absurd hpc (State.advanceJob_pc hs)
  | update c =>
    have hrev := hsh.not_reverts (.inr hpc)
    rw [hpc] at hsh
    have hfill : ∀ n, c.filling = some n → s.db.rows.Vouches n := by
      intro n hn
      cases c <;> simp only [RepoCall.filling, Option.some.injEq, reduceCtorEq] at hn <;>
        exact absurd hsh id
    rcases hp : s.repoStep o 0 c with ⟨s₁, r⟩
    obtain ⟨h₁, hkeep, -⟩ := h.repoStep hk o 0 c hrev hfill
    have hstep : (c.step o 0 s.now s.db).2 = r := by rw [← repoStep_snd, hp]
    have hrows : s₁.db.rows = (c.step o 0 s.now s.db).1.rows := by
      rw [(repoStep_eq hp).1]
    simp only [hp] at h₁ hkeep
    rcases State.advanceJob_update hpc hp hs with ⟨c', rfl, rfl⟩ | ⟨e, rfl, rfl⟩ | ⟨-, -, rfl⟩
    · refine h₁.setJob i ⟨hid, ?_⟩
      rcases RepoCall.step_inl o c hstep with ⟨k, rfl, -⟩ | ⟨k, r, rfl, -⟩ |
        ⟨n, r, rfl, -⟩ | ⟨n, r, rfl, hw, rfl⟩ | ⟨k, r, rfl, -⟩
      all_goals try exact absurd hsh id
      obtain ⟨rfl, hns⟩ := hsh
      obtain ⟨-, hu⟩ : ¬o = .fail ∧
          updateNotificationStatus s.db.rows s.now (toDBUpdateParams j.notification) = some r := by
        simpa [RepoCall.written] using hw
      obtain ⟨r₀, h₀, hr⟩ := updateNotificationStatus_some hu
      have hrid : r.id = j.notification.id := by rw [hr]; exact hk _ r₀ h₀
      refine ⟨rfl, r, ?_, by rw [hr]; exact hns⟩
      rw [hrows, RepoCall.step_rows, hw, ← hrid]; exact Table.put_self _ _
    · exact h₁.setJob i (quiet _ _ (.inr (.inr (.inr rfl))))
    · exact h₁.setJob i (quiet _ _ (.inr (.inl rfl)))
  | publishRetry =>
    rcases State.advanceJob_publishRetry hpc hs with ⟨-, rfl⟩ | ⟨-, rfl⟩
    · exact (((h.enqueue o .retry _).record_quiet (by simp))).setJob i
        (quiet _ _ (.inr (.inl rfl)))
    · exact (h.enqueue o .retry _).setJob i (quiet _ _ (.inr (.inr (.inr rfl))))
  | ack =>
    rcases State.advanceJob_ack hpc hs with ⟨-, rfl⟩ | ⟨-, rfl⟩
    · exact h.dropJob i
    · exact (h.dropJob i).requeue _
  | ackUnchecked =>
    rcases State.advanceJob_ackUnchecked hpc hs with ⟨-, rfl⟩ | ⟨-, rfl⟩
    · exact (h.record_quiet (by simp)).dropJob i
    · exact (h.dropJob i).requeue _
  | nack =>
    rw [State.advanceJob_nack hpc hs]
    exact (h.dropJob i).requeue _

theorem Vouched.sendJob (h : s.Vouched) {i : Nat} {j : Job} (hj : s.jobs[i]? = some j) {ok : Bool}
    {s' : State} (hs : s.sendJob i ok j = some s') : s'.Vouched := by
  obtain ⟨hid, -⟩ := h.jobs j (List.getElem?_mem hj)
  have h₁ := h.record_quiet (e := .send j.notification s.now ok) (by simp)
  obtain ⟨-, ⟨-, rfl⟩ | ⟨-, -, rfl⟩ | ⟨-, hlt, rfl⟩⟩ := State.sendJob_cases hs
  · exact h₁.setJob i ⟨hid, rfl, by simp⟩
  · exact h₁.setJob i ⟨hid, rfl, by simp⟩
  · exact h₁.setJob i ⟨hid, hlt⟩

theorem delete_step_ne_done {o : Outcome} {fresh : Nat} {now : Int} {d : Db} {id : Nat} :
    ((RepoCall.delete id).step o fresh now d).2 ≠ .inr .done := by
  simp only [RepoCall.step]
  split_ifs
  · simp
  · split
    · simp
    · cases o <;> simp [Outcome.commit]

theorem Vouched.advanceCall (h : s.Vouched) (ht : s.Traced) {i : Nat} {c : Call}
    (hc : s.calls[i]? = some c) (o : Outcome) (fresh : Nat) :
    (s.advanceCall i o fresh c).Vouched := by
  have hk : ∀ k r, s.db.rows k = some r → r.id = k := fun k r hr => (ht.db.rows k r hr).1
  have hsh := h.calls c (List.getElem?_mem hc)
  have hnext : ∀ c₀ c' : RepoCall, (c₀.step o fresh s.now s.db).2 = .inl c' → ¬c'.Reverts := by
    intro c₀ c' hs'
    rcases RepoCall.step_inl o c₀ hs' with ⟨_, _, rfl⟩ | ⟨_, _, _, _, rfl⟩ | ⟨_, _, _, _, rfl⟩ |
      ⟨_, _, _, _, rfl⟩ | ⟨_, _, _, _, rfl⟩ <;> exact id
  cases c with
  | create c | get c | cancelLookup _ c =>
    rcases hp : s.repoStep o fresh c with ⟨s₁, r⟩
    obtain ⟨h₁, -, hr⟩ := h.repoStep hk o fresh c hsh.1 hsh.2
    have hstep : (c.step o fresh s.now s.db).2 = r := by rw [← repoStep_snd, hp]
    simp only [hp] at h₁ hr
    first
    | (rcases State.advanceCall_create (i := i) hp with ⟨c', rfl, he⟩ | ⟨n, rfl, he⟩ | ⟨-, -, he⟩ <;>
        rw [he]
       · exact h₁.setCall i ⟨hnext c c' hstep, hr⟩
       · exact h₁.setCall i trivial
       · exact h₁.dropCall i)
    | (rcases State.advanceCall_get (i := i) hp with ⟨c', rfl, he⟩ | ⟨n, rfl, he⟩ | ⟨-, -, he⟩ <;>
        rw [he]
       · exact h₁.setCall i ⟨hnext c c' hstep, hr⟩
       · exact (h₁.record_quiet (by simp)).dropCall i
       · exact h₁.dropCall i)
    | (rcases State.advanceCall_cancelLookup (i := i) hp with
        ⟨c', rfl, he⟩ | ⟨n, rfl, -, he⟩ | ⟨n, rfl, -, he⟩ | ⟨-, -, he⟩ <;> rw [he]
       · exact h₁.setCall i ⟨hnext c c' hstep, hr⟩
       · exact (h₁.record_quiet (by simp)).setCall i (.inl rfl)
       · exact (h₁.record_quiet (by simp)).dropCall i
       · exact h₁.dropCall i)
  | publish n =>
    rw [State.advanceCall_publish]
    split_ifs
    · exact h.dropCall i
    · exact ((h.publishWait o _).record_quiet (by simp)).dropCall i
    · exact (h.publishWait o _).dropCall i
  | cancelDelete id c =>
    have hrev : ¬c.Reverts := by rcases hsh with rfl | ⟨rfl, -⟩ <;> exact fun h => h
    rcases hp : s.repoStep o fresh c with ⟨s₁, r⟩
    obtain ⟨h₁, hkeep, -⟩ := h.repoStep hk o fresh c hrev (by rcases hsh with rfl | ⟨rfl, -⟩ <;> simp [RepoCall.filling])
    have hstep : (c.step o fresh s.now s.db).2 = r := by rw [← repoStep_snd, hp]
    have hrows : s₁.db.rows = (c.step o fresh s.now s.db).1.rows := by
      rw [(repoStep_eq hp).1]
    simp only [hp] at h₁ hkeep
    rcases State.advanceCall_cancelDelete (i := i) hp with ⟨c', rfl, he⟩ | ⟨rfl, he⟩ | ⟨-, -, he⟩ <;>
      rw [he]
    · refine h₁.setCall i (.inr ?_)
      rcases hsh with rfl | ⟨rfl, -⟩
      · rcases RepoCall.step_inl o _ hstep with ⟨_, h', -⟩ | ⟨_, _, h', -⟩ | ⟨_, _, h', -⟩ |
          ⟨_, _, h', -⟩ | ⟨k, r, h', hw, rfl⟩
        all_goals try (cases h'; done)
        injection h' with hk'
        subst hk'
        obtain ⟨-, hcn⟩ : ¬o = .fail ∧ cancelNotification s.db.rows s.now id = some r := by
          simpa [RepoCall.written] using hw
        obtain ⟨r₀, h₀, hr⟩ := cancelNotification_some hcn
        have hrid : r.id = id := by rw [hr]; exact hk _ r₀ h₀
        refine ⟨rfl, r, ?_, by rw [hr]; simp⟩
        rw [hrows, RepoCall.step_rows, hw, ← hrid]; exact Table.put_self _ _
      · simp [RepoCall.step] at hstep
    · rcases hsh with rfl | ⟨rfl, hset⟩
      · exact absurd hstep delete_step_ne_done
      · exact (h₁.record fun id' he' => by cases he'; exact hkeep _ hset).dropCall i
    · exact h₁.dropCall i

theorem vouched_step {s s' : State} (ht : s.Traced) (h : s.Vouched) {a : Action}
    (hs : s.step a = some s') : s'.Vouched := by
  cases a with
  | create uuid req address chatID =>
    simp only [step] at hs
    split at hs <;> cases hs
    · exact h.addCall ⟨by simp [RepoCall.Reverts], by simp [RepoCall.filling]⟩
    · exact h
  | get id => cases hs; exact h.addCall ⟨by simp [RepoCall.Reverts], by simp [RepoCall.filling]⟩
  | cancel id =>
    cases hs; exact h.addCall ⟨by simp [RepoCall.Reverts], by simp [RepoCall.filling]⟩
  | call i o fresh =>
    obtain ⟨c, hc, rfl⟩ := Option.map_eq_some'.1 hs
    exact h.advanceCall ht hc o fresh
  | deliver i =>
    obtain ⟨m, -, rfl⟩ := Option.map_eq_some'.1 hs
    refine ⟨h.cache, fun j hj => ?_, h.calls, h.cancelled⟩
    rcases List.mem_append.1 hj with hj | hj
    · exact h.jobs j hj
    · rw [List.mem_singleton.1 hj]; exact ⟨rfl, rfl⟩
  | job i o =>
    obtain ⟨j, hj, hs⟩ := Option.bind_eq_some.1 hs
    exact h.advanceJob ht hj hs
  | send i ok =>
    obtain ⟨j, hj, hs⟩ := Option.bind_eq_some.1 hs
    exact h.sendJob hj hs
  | crashJob i =>
    obtain ⟨j, -, rfl⟩ := Option.map_eq_some'.1 hs
    exact (h.dropJob i).requeue _
  | crashCall i =>
    obtain ⟨c, -, rfl⟩ := Option.map_eq_some'.1 hs
    exact h.dropCall i
  | deadLetter q =>
    obtain ⟨⟨m, rest⟩, -, rfl⟩ := Option.map_eq_some'.1 hs
    exact (h.setQueue q rest).requeue m
  | tick δ => cases hs; exact ⟨h.cache, h.jobs, h.calls, h.cancelled⟩
  | expire id =>
    cases hs
    refine ⟨fun k n hn => ?_, h.jobs, h.calls, h.cancelled⟩
    simp only [Db.cacheDelete, Outcome.applied, if_true, Function.update_apply] at hn ⊢
    split_ifs at hn
    exact h.cache k n hn

end State

theorem State.step_keeps {s s' : State} (ht : s.Traced) (h : s.Vouched) {a : Action}
    (hs : s.step a = some s') : s.db.rows.Keeps s'.db.rows := by
  have hk : ∀ k r, s.db.rows k = some r → r.id = k := fun k r hr => (ht.db.rows k r hr).1
  have hrepo : ∀ o fresh c s₁ r, ¬RepoCall.Reverts c → s.repoStep o fresh c = (s₁, r) →
      s.db.rows.Keeps s₁.db.rows := by
    intro o fresh c s₁ r hc hp
    have := RepoCall.step_keeps (d := s.db) o fresh s.now hc
    rwa [(State.repoStep_eq hp).1]
  cases a with
  | call i o fresh =>
    obtain ⟨c, hc, rfl⟩ := Option.map_eq_some'.1 hs
    have hsh := h.calls c (List.getElem?_mem hc)
    cases c with
    | create c | get c | cancelLookup _ c =>
      rcases hp : s.repoStep o fresh c with ⟨s₁, r⟩
      have := hrepo o fresh c s₁ r hsh.1 hp
      first
      | (rcases State.advanceCall_create (i := i) hp with ⟨_, -, he⟩ | ⟨_, -, he⟩ | ⟨-, -, he⟩ <;>
          rw [he] <;> exact this)
      | (rcases State.advanceCall_get (i := i) hp with ⟨_, -, he⟩ | ⟨_, -, he⟩ | ⟨-, -, he⟩ <;>
          rw [he] <;> exact this)
      | (rcases State.advanceCall_cancelLookup (i := i) hp with
          ⟨_, -, he⟩ | ⟨_, -, -, he⟩ | ⟨_, -, -, he⟩ | ⟨-, -, he⟩ <;> rw [he] <;> exact this)
    | publish n =>
      rw [State.advanceCall_publish]; split_ifs <;> simpa using Table.Keeps.refl _
    | cancelDelete id c =>
      rcases hp : s.repoStep o fresh c with ⟨s₁, r⟩
      have := hrepo o fresh c s₁ r (by rcases hsh with rfl | ⟨rfl, -⟩ <;> exact fun h => h) hp
      rcases State.advanceCall_cancelDelete (i := i) hp with ⟨_, -, he⟩ | ⟨-, he⟩ | ⟨-, -, he⟩ <;>
        rw [he] <;> exact this
  | job i o =>
    obtain ⟨j, hj, hs⟩ := Option.bind_eq_some.1 hs
    have hsh := (h.jobs j (List.getElem?_mem hj)).2
    cases hpc : j.pc with
    | revalidate c =>
      rcases hp : s.repoStep o 0 c with ⟨s₁, r⟩
      have := hrepo o 0 c s₁ r (hsh.not_reverts (.inl hpc)) hp
      rcases State.advanceJob_revalidate hpc hp hs with
        ⟨_, -, rfl⟩ | ⟨_, -, -, rfl⟩ | ⟨_, -, -, rfl⟩ | ⟨-, -, rfl⟩ <;> exact this
    | update c =>
      rcases hp : s.repoStep o 0 c with ⟨s₁, r⟩
      have := hrepo o 0 c s₁ r (hsh.not_reverts (.inr hpc)) hp
      rcases State.advanceJob_update hpc hp hs with ⟨_, -, rfl⟩ | ⟨_, -, rfl⟩ | ⟨-, -, rfl⟩ <;>
        exact this
    | send => exact absurd hpc (State.advanceJob_pc hs)
    | publishRetry =>
      rcases State.advanceJob_publishRetry hpc hs with ⟨-, rfl⟩ | ⟨-, rfl⟩ <;>
        simpa using Table.Keeps.refl _
    | ack =>
      rcases State.advanceJob_ack hpc hs with ⟨-, rfl⟩ | ⟨-, rfl⟩ <;> exact Table.Keeps.refl _
    | ackUnchecked =>
      rcases State.advanceJob_ackUnchecked hpc hs with ⟨-, rfl⟩ | ⟨-, rfl⟩ <;>
        exact Table.Keeps.refl _
    | nack => rw [State.advanceJob_nack hpc hs]; exact Table.Keeps.refl _
  | send i ok =>
    obtain ⟨j, -, hs⟩ := Option.bind_eq_some.1 hs
    obtain ⟨-, ⟨-, rfl⟩ | ⟨-, -, rfl⟩ | ⟨-, -, rfl⟩⟩ := State.sendJob_cases hs <;>
      exact Table.Keeps.refl _
  | deadLetter q =>
    obtain ⟨⟨m, rest⟩, -, rfl⟩ := Option.map_eq_some'.1 hs
    cases q <;> exact Table.Keeps.refl _
  | expire id => cases hs; simpa using Table.Keeps.refl _
  | create uuid req address chatID =>
    simp only [State.step] at hs; split at hs <;> cases hs <;> exact Table.Keeps.refl _
  | get id | cancel id | tick δ => cases hs; exact Table.Keeps.refl _
  | deliver i | crashJob i | crashCall i =>
    obtain ⟨_, -, rfl⟩ := Option.map_eq_some'.1 hs; exact Table.Keeps.refl _

theorem reach_sound {P : State → Action → Bool} {s : State} (h : Reach P s) :
    s.Traced ∧ s.Vouched := by
  induction h with
  | init now =>
    exact ⟨State.traced_init now, ⟨fun _ _ h => (by cases h), fun _ h => (by cases h),
      fun _ h => (by cases h), fun _ h => (by cases h)⟩⟩
  | next _ _ hs ih => exact ⟨traced_step ih.1 hs, State.vouched_step ih.1 ih.2 hs⟩

end DelayedNotifier
