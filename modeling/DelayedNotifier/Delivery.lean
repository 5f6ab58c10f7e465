import DelayedNotifier.Settled

/-!
# No silent loss, except where a worker acks what it could not check

A notification whose `Publish` RabbitMQ accepted stays on the broker until its row leaves
`scheduled`: on one of the three queues, or in the hands of a worker that has not yet acked
it. A worker acks a delivery only when the row has left `scheduled` (it read `sent`, `failed`
or `cancelled`, or it wrote the final status itself), when it has put a retry on
`retry.queue.delay`, or when the revalidating `GetByID` failed: `handleMessage` logs the status
as unknown and acks. That last `Ack`, once it returns nil (`ackedUnchecked id`), loses the
notification (`scheduled_without_message`); without it nothing is lost
(`published_scheduled_has_copy`). A message RabbitMQ refuses is never on the broker: its
`Publish` logs `refuse`, not `publish`.
-/

namespace DelayedNotifier

section Lists

variable {α : Type} {l : List α} {i : Nat} {x y : α}

theorem mem_set_or_at (h : x ∈ l) : x ∈ l.set i y ∨ l[i]? = some x := by
  obtain ⟨k, hk⟩ := List.mem_iff_getElem?.1 h
  by_cases e : i = k
  · subst e; exact .inr hk
  · exact .inl (List.mem_iff_getElem?.2 ⟨k, by rw [List.getElem?_set_ne e]; exact hk⟩)

theorem mem_eraseIdx_or_at (h : x ∈ l) : x ∈ l.eraseIdx i ∨ l[i]? = some x := by
  obtain ⟨k, hk⟩ := List.mem_iff_getElem?.1 h
  by_cases e : k = i
  · subst e; exact .inr hk
  · exact .inl (List.mem_eraseIdx_iff_getElem?.2 ⟨k, e, hk⟩)

end Lists

namespace State

/-- The messages the broker still holds for delivery: those on the three queues and those a
worker holds and has not reached its final `Ack` for. -/
def copies (s : State) : List Msg :=
  s.wait ++ s.retry ++ s.process ++ (s.jobs.filter fun j => j.pc != .ack).map (·.msg)

def LiveCopy (s : State) (id : Nat) : Prop := ∃ m ∈ s.copies, m.body.id = id

/-- The row of `id` is `scheduled`, its `Publish` succeeded with a message RabbitMQ accepted,
and no worker's `Ack` of a delivery of it whose revalidation failed has returned nil. -/
def Pending (s : State) (id : Nat) : Prop :=
  (∃ r, s.db.rows id = some r ∧ r.status = .scheduled) ∧
    (∃ n, Event.publish n ∈ s.log ∧ n.id = id) ∧ Event.ackedUnchecked id ∉ s.log

def NoLoss (s : State) : Prop := ∀ id, s.Pending id → s.LiveCopy id

variable {s s' : State} {m : Msg} {i : Nat}

theorem mem_copies :
    m ∈ s.copies ↔ m ∈ s.wait ++ s.retry ++ s.process ∨ ∃ j ∈ s.jobs, j.pc ≠ .ack ∧ j.msg = m := by
  simp [copies, List.mem_append, List.mem_map, List.mem_filter, or_assoc, and_assoc]

@[simp] theorem copies_record (e : Event) : (s.record e).copies = s.copies := rfl
@[simp] theorem copies_dropCall : (s.dropCall i).copies = s.copies := rfl

theorem copies_of_queued (h : m ∈ s.wait ++ s.retry ++ s.process) : m ∈ s.copies :=
  mem_copies.2 (.inl h)

theorem copies_of_job {j : Job} (hj : j ∈ s.jobs) (hp : j.pc ≠ .ack) : j.msg ∈ s.copies :=
  mem_copies.2 (.inr ⟨j, hj, hp, rfl⟩)

theorem copies_setJob {j : Job} (j' : Job) (hj : s.jobs[i]? = some j) (hm : m ∈ s.copies) :
    m ∈ (s.setJob i j').copies ∨ (j.pc ≠ .ack ∧ m = j.msg) := by
  rcases mem_copies.1 hm with hm | ⟨j₀, hj₀, hp, rfl⟩
  · exact .inl (copies_of_queued hm)
  · rcases mem_set_or_at (y := j') hj₀ with hj₀ | hj₀
    · exact .inl (copies_of_job hj₀ hp)
    · rw [hj] at hj₀; cases hj₀; exact .inr ⟨hp, rfl⟩

theorem copies_setJob_self (j' : Job) (hj : i < s.jobs.length) (hp : j'.pc ≠ .ack) :
    j'.msg ∈ (s.setJob i j').copies :=
  copies_of_job (List.mem_iff_getElem?.2 ⟨i, by simp [hj]⟩) hp

theorem copies_dropJob {j : Job} (hj : s.jobs[i]? = some j) (hm : m ∈ s.copies) :
    m ∈ (s.dropJob i).copies ∨ (j.pc ≠ .ack ∧ m = j.msg) := by
  rcases mem_copies.1 hm with hm | ⟨j₀, hj₀, hp, rfl⟩
  · exact .inl (copies_of_queued hm)
  · rcases mem_eraseIdx_or_at (i := i) hj₀ with hj₀ | hj₀
    · exact .inl (copies_of_job hj₀ hp)
    · rw [hj] at hj₀; cases hj₀; exact .inr ⟨hp, rfl⟩

theorem copies_requeue (m' : Msg) (hm : m ∈ s.copies) : m ∈ (s.requeue m').copies := by
  rcases mem_copies.1 hm with hm | hm
  · exact copies_of_queued (by simp only [requeue_queues, List.mem_append] at hm ⊢; tauto)
  · exact mem_copies.2 (.inr hm)

theorem copies_requeue_self (m' : Msg) : m' ∈ (s.requeue m').copies :=
  copies_of_queued (by simp)

theorem copies_enqueue (o : Outcome) (q : DelayQueue) (m' : Msg) (hm : m ∈ s.copies) :
    m ∈ (s.enqueue o q m').copies := by
  unfold enqueue
  split
  · rcases mem_copies.1 hm with hm | hm
    · refine copies_of_queued ?_
      simp only [List.mem_append] at hm
      rcases hm with (h | h) | h <;> cases q <;> simp [setQueue, queue, h]
    · exact mem_copies.2 (.inr (by cases q <;> exact hm))
  · exact hm

theorem copies_enqueue_self (q : DelayQueue) {m' : Msg} (hm : m'.accepted) :
    m' ∈ (s.enqueue .ok q m').copies :=
  copies_of_queued (by cases q <;> simp [enqueue, Outcome.applied, setQueue, queue, hm])

theorem copies_publishWait (o : Outcome) (m' : Msg) (hm : m ∈ s.copies) :
    m ∈ (s.publishWait o m').copies := by
  rcases publishWait_eq s m' o with e | ⟨-, -, e⟩ <;> rw [e]
  · exact copies_enqueue o .wait m' hm
  · exact hm

theorem copies_repoStep (o : Outcome) (fresh : Nat) (c : RepoCall) :
    (s.repoStep o fresh c).1.copies = s.copies := by
  rw [repoStep_fst]; rfl

theorem not_pending_of_settled {id : Nat} (h : s.db.rows.Settled id) : ¬s.Pending id := by
  rintro ⟨⟨r, hr, hs⟩, -, -⟩
  obtain ⟨r', hr', hs'⟩ := h
  rw [hr] at hr'; cases hr'; exact hs' hs

theorem not_pending_of_acked {id : Nat} (h : Event.ackedUnchecked id ∈ s.log) : ¬s.Pending id :=
  fun hp => hp.2.2 h

theorem liveCopy_advanceJob (ht : s.Traced) (hv : s.Vouched) {j : Job} {o : Outcome}
    (hj : s.jobs[i]? = some j) (hs : s.advanceJob i o j = some s') (hm : m ∈ s.copies)
    (hp : s'.Pending m.body.id) : s'.LiveCopy m.body.id := by
  have hlen : i < s.jobs.length := (List.getElem?_eq_some_iff.1 hj).1
  obtain ⟨hid, hsh⟩ := hv.jobs j (List.getElem?_mem hj)
  have hk : ∀ k r, s.db.rows k = some r → r.id = k := fun k r hr => (ht.db.rows k r hr).1
  -- the worker moves to `p`: a place other than its final `Ack`, or the `Ack` once the id is
  -- no longer pending or has another copy on the broker
  have step_to : ∀ (s₁ : State) (p : WorkerPc), (∀ x ∈ s.copies, x ∈ s₁.copies) →
      s₁.jobs = s.jobs → (p ≠ .ack ∨ ¬s'.Pending j.msg.body.id ∨ s'.LiveCopy j.msg.body.id) →
      s' = s₁.setJob i { j with pc := p } → s'.LiveCopy m.body.id := by
    rintro s₁ p hc hjobs hpa rfl
    rcases copies_setJob { j with pc := p } (hjobs ▸ hj) (hc m hm) with h | ⟨-, rfl⟩
    · exact ⟨m, h, rfl⟩
    · rcases hpa with hpa | hnp | hl
      · exact ⟨_, copies_setJob_self _ (hjobs ▸ hlen) hpa, rfl⟩
      · exact absurd hp hnp
      · exact hl
  cases hpc : j.pc with
  | revalidate c =>
    have hrev := hsh.not_reverts (.inl hpc)
    rw [hpc] at hsh
    have hfill : ∀ n, c.filling = some n → s.db.rows.Vouches n := by
      intro n hn
      cases c <;> simp only [RepoCall.filling, Option.some.injEq, reduceCtorEq] at hn
      · subst hn; exact hsh.2
      · exact absurd hsh id
    rcases hp₁ : s.repoStep o 0 c with ⟨s₁, r⟩
    obtain ⟨-, hkeep, hr⟩ := hv.repoStep hk o 0 c hrev hfill
    have hstep : (c.step o 0 s.now s.db).2 = r := by rw [← repoStep_snd, hp₁]
    have hc₁ : s₁.copies = s.copies := by
      have := copies_repoStep (s := s) o 0 c; rwa [hp₁] at this
    have hj₁ : s₁.jobs = s.jobs := by
      rw [(repoStep_eq hp₁).1]
    simp only [hp₁] at hkeep hr
    rcases State.advanceJob_revalidate hpc hp₁ hs with
      ⟨c', rfl, he⟩ | ⟨n, rfl, -, he⟩ | ⟨n, rfl, hn, he⟩ | ⟨-, -, he⟩
    · exact step_to s₁ _ (hc₁ ▸ fun _ h => h) hj₁ (.inl (by simp)) he
    · exact step_to (s₁.record _) _ (hc₁ ▸ fun _ h => h) hj₁ (.inl (by simp)) he
    · refine step_to ((s₁.record _).record _) _ (hc₁ ▸ fun _ h => h) hj₁ (.inr (.inl ?_)) he
      have hnid : n.id = j.notification.id := by
        rcases RepoCall.step_record o c hstep with ⟨k, rfl, hc'⟩ | hf
        · exact ((ht.db.cache k n hc').1).trans hsh
        · cases c <;> simp only [RepoCall.filling, Option.some.injEq, reduceCtorEq] at hf
          · subst hf; exact hsh.1
          · exact absurd hsh id
      rw [he, ← hid, ← hnid]
      exact not_pending_of_settled (hr n rfl hn)
    · exact step_to (s₁.record _) _ (hc₁ ▸ fun _ h => h) hj₁ (.inl (by simp)) he
  | send => exact absurd hpc (State.advanceJob_pc hs)
  | update c =>
    have hrev := hsh.not_reverts (.inr hpc)
    rw [hpc] at hsh
    rcases hp₁ : s.repoStep o 0 c with ⟨s₁, r⟩
    obtain ⟨-, hkeep, -⟩ := hv.repoStep hk o 0 c hrev (by
      intro n hn; cases c <;> simp only [RepoCall.filling, reduceCtorEq] at hn <;> exact absurd hsh id)
    have hstep : (c.step o 0 s.now s.db).2 = r := by rw [← repoStep_snd, hp₁]
    have hc₁ : s₁.copies = s.copies := by
      have := copies_repoStep (s := s) o 0 c; rwa [hp₁] at this
    have hj₁ : s₁.jobs = s.jobs := by
      rw [(repoStep_eq hp₁).1]
    simp only [hp₁] at hkeep
    rcases State.advanceJob_update hpc hp₁ hs with ⟨c', rfl, he⟩ | ⟨e, rfl, he⟩ | ⟨hnl, hne, he⟩
    · exact step_to s₁ _ (hc₁ ▸ fun _ h => h) hj₁ (.inl (by simp)) he
    · exact step_to s₁ _ (hc₁ ▸ fun _ h => h) hj₁ (.inl (by simp)) he
    · refine step_to s₁ _ (hc₁ ▸ fun _ h => h) hj₁ (.inr (.inl ?_)) he
      rw [he, ← hid]
      cases c with
      | update n =>
        obtain ⟨rfl, -⟩ := hsh
        cases r with
        | inl x => exact absurd rfl (hnl x)
        | inr r =>
          obtain ⟨e, rfl⟩ := RepoCall.update_reply o j.notification hstep
          exact absurd rfl (hne e)
      | updateInvalidate k =>
        obtain ⟨rfl, hset⟩ := hsh
        exact not_pending_of_settled (hkeep _ hset)
      | _ => exact absurd hsh id
  | publishRetry =>
    have hc₁ : ∀ x ∈ s.copies, x ∈ (s.enqueue o .retry (publishRetryMsg s.now j.notification
        (calculateExponentialBackoff j.notification.attempts))).copies :=
      fun x hx => copies_enqueue o .retry _ hx
    have hacc := publishRetryMsg_accepted s.now j.notification (by simpa [hpc] using hsh)
    rcases State.advanceJob_publishRetry hpc hs with ⟨rfl, he⟩ | ⟨-, he⟩
    · refine step_to ((s.enqueue .ok .retry _).record _) _ hc₁ (by simp)
        (.inr (.inr ⟨publishRetryMsg s.now j.notification
          (calculateExponentialBackoff j.notification.attempts), ?_, hid⟩)) he
      rw [he]
      exact copies_of_queued
        (List.mem_append_left _ (List.mem_append_right _ (State.mem_enqueue_self .retry hacc)))
    · exact step_to _ _ hc₁ (by simp) (.inl (by simp)) he
  | ack =>
    rcases State.advanceJob_ack hpc hs with ⟨-, rfl⟩ | ⟨-, rfl⟩
    · rcases copies_dropJob hj hm with h | ⟨h, -⟩
      · exact ⟨m, h, rfl⟩
      · exact absurd hpc h
    · rcases copies_dropJob hj hm with h | ⟨h, -⟩
      · exact ⟨m, copies_requeue _ h, rfl⟩
      · exact absurd hpc h
  | ackUnchecked =>
    rcases State.advanceJob_ackUnchecked hpc hs with ⟨-, rfl⟩ | ⟨-, rfl⟩
    · rcases copies_dropJob hj hm with h | ⟨-, rfl⟩
      · exact ⟨m, h, rfl⟩
      · rw [← hid] at hp
        exact absurd hp (not_pending_of_acked (by simp))
    · rcases copies_dropJob hj hm with h | ⟨-, rfl⟩
      · exact ⟨m, copies_requeue _ h, rfl⟩
      · exact ⟨_, copies_requeue_self _, rfl⟩
  | nack =>
    rw [State.advanceJob_nack hpc hs]
    rcases copies_dropJob hj hm with h | ⟨-, rfl⟩
    · exact ⟨m, copies_requeue _ h, rfl⟩
    · exact ⟨_, copies_requeue_self _, rfl⟩

theorem copies_advanceCall {c : Call} {o : Outcome} {fresh : Nat} (hm : m ∈ s.copies) :
    m ∈ (s.advanceCall i o fresh c).copies := by
  cases c with
  | publish n =>
    rw [advanceCall_publish]; split_ifs
    · exact hm
    all_goals exact copies_publishWait o _ hm
  | create c | get c | cancelLookup _ c | cancelDelete _ c =>
    rcases hp : s.repoStep o fresh c with ⟨s₁, r⟩
    have hc₁ : s₁.copies = s.copies := by
      have := copies_repoStep (s := s) o fresh c; rwa [hp] at this
    rw [← hc₁] at hm
    first
    | (rcases advanceCall_create (i := i) hp with ⟨_, -, he⟩ | ⟨_, -, he⟩ | ⟨-, -, he⟩ <;>
        rw [he] <;> exact hm)
    | (rcases advanceCall_get (i := i) hp with ⟨_, -, he⟩ | ⟨_, -, he⟩ | ⟨-, -, he⟩ <;>
        rw [he] <;> exact hm)
    | (rcases advanceCall_cancelLookup (i := i) hp with
        ⟨_, -, he⟩ | ⟨_, -, -, he⟩ | ⟨_, -, -, he⟩ | ⟨-, -, he⟩ <;> rw [he] <;> exact hm)
    | (rcases advanceCall_cancelDelete (i := i) hp with ⟨_, -, he⟩ | ⟨-, he⟩ | ⟨-, -, he⟩ <;>
        rw [he] <;> exact hm)

theorem liveCopy_step (ht : s.Traced) (hv : s.Vouched) {a : Action} (hs : s.step a = some s')
    (hm : m ∈ s.copies) (hp : s'.Pending m.body.id) : s'.LiveCopy m.body.id := by
  cases a with
  | create uuid req address chatID =>
    simp only [step] at hs; split at hs <;> cases hs <;> exact ⟨m, hm, rfl⟩
  | get id | cancel id | tick δ | expire id => cases hs; exact ⟨m, hm, rfl⟩
  | call i o fresh =>
    obtain ⟨c, -, rfl⟩ := Option.map_eq_some'.1 hs
    exact ⟨m, copies_advanceCall hm, rfl⟩
  | crashCall i => obtain ⟨c, -, rfl⟩ := Option.map_eq_some'.1 hs; exact ⟨m, hm, rfl⟩
  | deliver i =>
    obtain ⟨m₀, hm₀, rfl⟩ := Option.map_eq_some'.1 hs
    refine ⟨m, ?_, rfl⟩
    rcases mem_copies.1 hm with hq | ⟨j, hj, hpa, rfl⟩
    · simp only [List.mem_append] at hq
      rcases hq with (hq | hq) | hq
      · exact copies_of_queued (by simp [hq])
      · exact copies_of_queued (by simp [hq])
      · rcases mem_eraseIdx_or_at (i := i) hq with hq | hq
        · exact copies_of_queued (by simp [hq])
        · rw [hm₀] at hq; cases hq
          exact copies_of_job (j := ⟨m, m.body, .revalidate (.getByID m.body.id)⟩)
            (by simp) (by simp)
    · exact copies_of_job (by simp [hj]) hpa
  | job i o =>
    obtain ⟨j, hj, hs⟩ := Option.bind_eq_some.1 hs
    exact liveCopy_advanceJob ht hv hj hs hm hp
  | send i ok =>
    obtain ⟨j, hj, hs⟩ := Option.bind_eq_some.1 hs
    have hlen : i < s.jobs.length := (List.getElem?_eq_some_iff.1 hj).1
    refine ⟨m, ?_, rfl⟩
    obtain ⟨-, ⟨-, rfl⟩ | ⟨-, -, rfl⟩ | ⟨-, -, rfl⟩⟩ := sendJob_cases hs <;>
      rcases copies_setJob (s := s.record _) _ hj hm with h | ⟨-, rfl⟩ <;>
      first | exact h | exact copies_setJob_self _ hlen (by simp)
  | crashJob i =>
    obtain ⟨j, hj, rfl⟩ := Option.map_eq_some'.1 hs
    rcases copies_dropJob hj hm with h | ⟨-, rfl⟩
    · exact ⟨m, copies_requeue _ h, rfl⟩
    · exact ⟨_, copies_requeue_self _, rfl⟩
  | deadLetter q =>
    obtain ⟨⟨m₀, rest⟩, hd, rfl⟩ := Option.map_eq_some'.1 hs
    obtain ⟨hq, -⟩ := deadLetter_some hd
    refine ⟨m, ?_, rfl⟩
    rcases mem_copies.1 hm with h | h
    · refine copies_of_queued ?_
      cases q <;> simp only [queue] at hq <;>
        simp only [setQueue, requeue_queues, hq, List.mem_append, List.mem_cons] at h ⊢ <;> tauto
    · exact mem_copies.2 (.inr (by cases q <;> exact h))

theorem step_log {a : Action} (hs : s.step a = some s') :
    s.log <+: s'.log ∧ ∀ n, Event.publish n ∈ s'.log →
      Event.publish n ∈ s.log ∨ ∃ m ∈ s'.copies, m.body = n := by
  have hrepo : ∀ {o fresh c s₁ r}, s.repoStep o fresh c = (s₁, r) →
      ∃ l, s₁.log = s.log ++ l ∧ ∀ n, Event.publish n ∉ l := fun hp => by
    obtain ⟨rfl, -⟩ := repoStep_eq hp
    exact ⟨_, rfl, by simp⟩
  cases a with
  | create uuid req address chatID =>
    simp only [step] at hs; split at hs <;> cases hs <;> exact ⟨by simp, fun n hn => .inl hn⟩
  | get id | cancel id | tick δ | expire id => cases hs; exact ⟨by simp, fun n hn => .inl hn⟩
  | deliver i | crashJob i | crashCall i =>
    obtain ⟨_, -, rfl⟩ := Option.map_eq_some'.1 hs; exact ⟨by simp, fun n hn => .inl hn⟩
  | deadLetter q =>
    obtain ⟨⟨m₀, rest⟩, -, rfl⟩ := Option.map_eq_some'.1 hs
    exact ⟨by cases q <;> simp [setQueue], fun n hn => .inl (by cases q <;> simpa [setQueue] using hn)⟩
  | send i ok =>
    obtain ⟨j, -, hs⟩ := Option.bind_eq_some.1 hs
    obtain ⟨-, ⟨-, rfl⟩ | ⟨-, -, rfl⟩ | ⟨-, -, rfl⟩⟩ := sendJob_cases hs <;>
      exact ⟨by simp, fun n hn => .inl (by simpa using hn)⟩
  | call i o fresh =>
    obtain ⟨c, -, rfl⟩ := Option.map_eq_some'.1 hs
    cases c with
    | publish n =>
      rw [advanceCall_publish]
      split_ifs with hc ho
      · exact ⟨by simp, fun n hn => .inl (by simpa using hn)⟩
      · obtain ⟨rfl, ha⟩ := ho
        have he : s.publishWait .ok (publishMsg s.now n) = s.enqueue .ok .wait (publishMsg s.now n) := by
          simp [publishWait, ha]
        refine ⟨by simp [he], fun n' hn' => ?_⟩
        simp only [dropCall_log, record_log, he, enqueue_log, List.mem_append, List.mem_singleton,
          Event.publish.injEq] at hn'
        refine hn'.imp_right fun h => ⟨publishMsg s.now n, ?_, by simp [h, publishMsg]⟩
        rw [copies_dropCall, copies_record, he]; exact copies_enqueue_self .wait ha
      · refine ⟨by rcases publishWait_eq s (publishMsg s.now n) o with e | ⟨-, -, e⟩ <;> simp [e],
          fun n' hn' => .inl ?_⟩
        rcases publishWait_eq s (publishMsg s.now n) o with e | ⟨-, -, e⟩ <;> simpa [e] using hn'
    | create c | get c | cancelLookup _ c | cancelDelete _ c =>
      rcases hp : s.repoStep o fresh c with ⟨s₁, r⟩
      obtain ⟨l, hl, hnp⟩ := hrepo hp
      first
      | (rcases advanceCall_create (i := i) hp with ⟨_, -, he⟩ | ⟨_, -, he⟩ | ⟨-, -, he⟩ <;>
          rw [he])
      | (rcases advanceCall_get (i := i) hp with ⟨_, -, he⟩ | ⟨_, -, he⟩ | ⟨-, -, he⟩ <;> rw [he])
      | (rcases advanceCall_cancelLookup (i := i) hp with
          ⟨_, -, he⟩ | ⟨_, -, -, he⟩ | ⟨_, -, -, he⟩ | ⟨-, -, he⟩ <;> rw [he])
      | (rcases advanceCall_cancelDelete (i := i) hp with ⟨_, -, he⟩ | ⟨-, he⟩ | ⟨-, -, he⟩ <;>
          rw [he])
      all_goals exact ⟨by simp [hl], fun n hn => .inl (by simpa [hl, hnp] using hn)⟩
  | job i o =>
    obtain ⟨j, -, hs⟩ := Option.bind_eq_some.1 hs
    cases hpc : j.pc with
    | revalidate c =>
      rcases hp : s.repoStep o 0 c with ⟨s₁, r⟩
      obtain ⟨l, hl, hnp⟩ := hrepo hp
      rcases advanceJob_revalidate hpc hp hs with
          ⟨_, -, rfl⟩ | ⟨_, -, -, rfl⟩ | ⟨_, -, -, rfl⟩ | ⟨-, -, rfl⟩ <;>
        exact ⟨by simp [hl], fun n hn => .inl (by simpa [hl, hnp] using hn)⟩
    | update c =>
      rcases hp : s.repoStep o 0 c with ⟨s₁, r⟩
      obtain ⟨l, hl, hnp⟩ := hrepo hp
      rcases advanceJob_update hpc hp hs with ⟨_, -, rfl⟩ | ⟨_, -, rfl⟩ | ⟨-, -, rfl⟩ <;>
        exact ⟨by simp [hl], fun n hn => .inl (by simpa [hl, hnp] using hn)⟩
    | send => exact absurd hpc (advanceJob_pc hs)
    | publishRetry =>
      rcases advanceJob_publishRetry hpc hs with ⟨-, rfl⟩ | ⟨-, rfl⟩ <;>
        exact ⟨by simp, fun n hn => .inl (by simpa using hn)⟩
    | ack =>
      rcases advanceJob_ack hpc hs with ⟨-, rfl⟩ | ⟨-, rfl⟩ <;>
        exact ⟨by simp, fun n hn => .inl (by simpa using hn)⟩
    | ackUnchecked =>
      rcases advanceJob_ackUnchecked hpc hs with ⟨-, rfl⟩ | ⟨-, rfl⟩ <;>
        exact ⟨by simp, fun n hn => .inl (by simpa using hn)⟩
    | nack => rw [advanceJob_nack hpc hs]; exact ⟨by simp, fun n hn => .inl (by simpa using hn)⟩

theorem pending_step (ht : s.Traced) (hv : s.Vouched) {a : Action} (hs : s.step a = some s')
    {k : Nat} (hp : s'.Pending k) : s.Pending k ∨ s'.LiveCopy k := by
  obtain ⟨⟨r', hr', hsched⟩, ⟨n, hn, rfl⟩, hskip⟩ := hp
  obtain ⟨hpre, hpub⟩ := step_log hs
  rcases hpub n hn with hn₀ | ⟨m, hm, hmn⟩
  · obtain ⟨r, hr, -⟩ := ht.held n (mem_held.2 (.inr (.inr (.inr ⟨_, hn₀, by simp [Event.held]⟩))))
    refine .inl ⟨⟨r, hr, ?_⟩, ⟨n, hn₀, rfl⟩, fun h => hskip (hpre.subset h)⟩
    by_contra hne
    obtain ⟨r'', h'', hne''⟩ := State.step_keeps ht hv hs n.id ⟨r, hr, hne⟩
    rw [hr'] at h''; cases h''; exact hne'' hsched
  · exact .inr ⟨m, hm, by rw [hmn]⟩

theorem noLoss_step (ht : s.Traced) (hv : s.Vouched) {a : Action} (hs : s.step a = some s')
    (h : s.NoLoss) : s'.NoLoss := fun k hp =>
  (pending_step ht hv hs hp).elim
    (fun hp₀ => let ⟨_, hm, hk⟩ := h k hp₀; hk ▸ liveCopy_step ht hv hs hm (hk ▸ hp)) fun h => h

end State

theorem reach_noLoss {P : State → Action → Bool} {s : State} (h : Reach P s) : s.NoLoss := by
  induction h with
  | init now => exact fun _ ⟨⟨_, hr, _⟩, _⟩ => by cases hr
  | next hr _ hs ih => exact State.noLoss_step (reach_sound hr).1 (reach_sound hr).2 hs ih

/-- Every notification whose row is `scheduled` and whose `Publish` succeeded with a message
RabbitMQ accepted has a message on `wait.queue.delay`, `retry.queue.delay` or
`notifications.queue.process`, or one held by a worker that has not acked it, unless a worker's
`Ack` of a delivery of it whose revalidating `GetByID` failed has returned nil. -/
theorem published_scheduled_has_copy {s : State} (h : Reach anyRun s) {k : Nat} {r : Row}
    (hr : s.db.rows k = some r) (hsched : r.status = .scheduled)
    (hpub : ∃ n, Event.publish n ∈ s.log ∧ n.id = k) (hskip : Event.ackedUnchecked k ∉ s.log) :
    (∃ m ∈ s.wait ++ s.retry ++ s.process, m.body.id = k) ∨
      ∃ j ∈ s.jobs, j.pc ≠ .ack ∧ j.msg.body.id = k := by
  obtain ⟨m, hm, rfl⟩ := reach_noLoss h k ⟨⟨r, hr, hsched⟩, hpub, hskip⟩
  rcases State.mem_copies.1 hm with hq | ⟨j, hj, hpc, rfl⟩
  · exact .inl ⟨m, hq, rfl⟩
  · exact .inr ⟨j, hj, hpc, rfl⟩

private def published : List Action :=
  [.create 0 ⟨"a@b.co", "email", "s", "", 0, none⟩ (.ok ()) (.error ""), .call 0 .ok 1,
   .call 0 .ok 0, .call 0 .ok 0, .deadLetter .wait, .deliver 0]

private def pendingOne (s : State) : Bool :=
  (match s.db.rows 1 with
    | some r => r.status == .scheduled
    | none => false) &&
  (s.log.any fun e => match e with
    | .publish n => n.id == 1
    | _ => false) &&
  !(s.log.any fun e => match e with
    | .ackedUnchecked k => k == 1
    | _ => false)

set_option maxRecDepth 20000 in
theorem published_scheduled_has_copy_when_taken :
    ∃ s, Reach anyRun s ∧ ∃ r, s.db.rows 1 = some r ∧ r.status = .scheduled ∧
      (∃ n, Event.publish n ∈ s.log ∧ n.id = 1) ∧ Event.ackedUnchecked 1 ∉ s.log ∧
      ((∃ m ∈ s.wait ++ s.retry ++ s.process, m.body.id = 1) ∨
        ∃ j ∈ s.jobs, j.pc ≠ .ack ∧ j.msg.body.id = 1) := by
  have h : ((State.init 0).run anyRun published).map pendingOne = some true := by decide
  cases hrun : (State.init 0).run anyRun published with
  | none => simp [hrun] at h
  | some s =>
    simp only [hrun, Option.map_some', Option.some.injEq, pendingOne, Bool.and_eq_true,
      Bool.not_eq_true', List.any_eq_true, List.any_eq_false] at h
    obtain ⟨⟨hrow, ⟨e, he, hpe⟩⟩, hskip⟩ := h
    split at hrow
    · rename_i r hr
      have hsched : r.status = .scheduled := by simpa using hrow
      have hpub : ∃ n, Event.publish n ∈ s.log ∧ n.id = 1 := by
        rcases e with _ | n | _ | _ | _ | _ | _ | _ | _ <;> simp at hpe
        exact ⟨n, he, hpe⟩
      have hsk : Event.ackedUnchecked 1 ∉ s.log := fun hs => by simpa using hskip _ hs
      exact ⟨s, reach_run (.init 0) hrun, r, hr, hsched, hpub, hsk,
        published_scheduled_has_copy (reach_run (.init 0) hrun) hr hsched hpub hsk⟩
    · cases hrow

/-- The revalidating read misses the cache and the primary read fails: the worker logs the
error and acks. -/
private def stranded : List Action := published ++ [.job 0 .fail, .job 0 .fail, .job 0 .ok]

private def lostOne (s : State) : Bool :=
  (match s.db.rows 1 with
    | some r => r.status == .scheduled
    | none => false) &&
  (s.log.any fun e => match e with
    | .publish n => n.id == 1
    | _ => false) &&
  (s.wait ++ s.retry ++ s.process).all (fun m => m.body.id != 1) && s.jobs.isEmpty

set_option maxRecDepth 20000 in
theorem scheduled_without_message :
    ∃ s, Reach anyRun s ∧ (∃ r, s.db.rows 1 = some r ∧ r.status = .scheduled) ∧
      (∃ n, Event.publish n ∈ s.log ∧ n.id = 1) ∧
      (∀ m ∈ s.wait ++ s.retry ++ s.process, m.body.id ≠ 1) ∧ s.jobs = [] := by
  have h : ((State.init 0).run anyRun stranded).map lostOne = some true := by decide
  cases hrun : (State.init 0).run anyRun stranded with
  | none => simp [hrun] at h
  | some s =>
    simp only [hrun, Option.map_some', Option.some.injEq, lostOne, Bool.and_eq_true,
      List.any_eq_true, List.all_eq_true, List.isEmpty_iff, bne_iff_ne, ne_eq] at h
    obtain ⟨⟨⟨hrow, ⟨e, he, hpe⟩⟩, hq⟩, hj⟩ := h
    refine ⟨s, reach_run (.init 0) hrun, ?_, ?_, hq, hj⟩
    · split at hrow
      · exact ⟨_, ‹_›, by simpa using hrow⟩
      · cases hrow
    · rcases e with _ | n | _ | _ | _ | _ | _ | _ | _ <;> simp at hpe
      exact ⟨n, he, hpe⟩

end DelayedNotifier
