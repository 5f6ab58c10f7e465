import DelayedNotifier.Copies

/-!
# No early fire, up to a millisecond

`RabbitMQQueue.Publish` gives a message the expiration `time.Until(scheduled_at)` in whole
milliseconds, truncated, and the worker sends as soon as it has revalidated, without looking
at the clock. So a message is due up to a millisecond before its notification is
(`send_before_scheduled`), and no earlier: every `Send` happens less than a millisecond before
the stored `scheduled_at` (`send_after_scheduled_minus_ms`). A delay so long that `time.Until`
saturates gives an `Expiration` RabbitMQ refuses, so that message never reaches a worker.
Retries only push the instant later.

On every run, whatever the broker has released is due and every `Send` lies in the past
(`State.Released`); an API call touches no worker and no queue but `wait.queue.delay`
(`State.advanceCall_frame`). Both serve the retry protocol's timing as well.
-/

namespace DelayedNotifier

def Event.byWorker : Event → Bool
  | .send .. | .publishRetry .. | .skip .. | .ackedUnchecked _ => true
  | _ => false

/-- What the broker has let go of is due, and every `Send` lies in the past. -/
structure State.Released (s : State) : Prop where
  process : ∀ m ∈ s.process, m.due ≤ s.now
  jobs : ∀ j ∈ s.jobs, j.msg.due ≤ s.now
  sent : ∀ n t ok, Event.send n t ok ∈ s.log → t ≤ s.now

def State.ApiFrame (s s' : State) : Prop :=
  s'.retry = s.retry ∧ s'.process = s.process ∧ s'.jobs = s.jobs ∧ s'.now = s.now ∧
    ∃ l, s'.log = s.log ++ l ∧ ∀ e ∈ l, e.byWorker = false

/-- A message is due less than a millisecond before the notification it carries. -/
def Msg.Timely (m : Msg) : Prop := m.body.scheduledAt < m.due + 1000000

def Job.Punctual (j : Job) : Prop :=
  j.msg.Timely ∧ j.notification.scheduledAt = j.msg.body.scheduledAt ∧
    (j.pc = .publishRetry → j.notification.attempts < maxRetries)

structure State.Punctual (s : State) : Prop where
  queued : ∀ m ∈ s.wait ++ s.retry ++ s.process, m.Timely
  jobs : ∀ j ∈ s.jobs, j.Punctual
  sends : ∀ n t ok, Event.send n t ok ∈ s.log → n.scheduledAt < t + 1000000

theorem publishMsg_unsaturated {now : Int} {n : Notification} (h : (publishMsg now n).accepted) :
    n.scheduledAt - now ≤ maxDuration := by
  by_contra hlt
  have hsat : timeUntil now n.scheduledAt = maxDuration := by
    rw [timeUntil, timeSub, min_eq_left (by omega), max_eq_right (by simp [minDuration, maxDuration])]
  simp only [Msg.accepted, publishMsg, hsat, maxDuration, milliseconds, maxExpiration,
    decide_eq_true_eq] at h
  revert h; decide

theorem publishMsg_timely {now : Int} {n : Notification} (h : (publishMsg now n).accepted) :
    (publishMsg now n).Timely := by
  have hsat : timeUntil now n.scheduledAt = max minDuration (n.scheduledAt - now) := by
    rw [timeUntil, timeSub, min_eq_right (publishMsg_unsaturated h)]
  simp only [Msg.Timely, Msg.due, publishMsg, hsat, milliseconds, minDuration]
  split_ifs with hd
  · simp only [Int.zero_tdiv]; omega
  · rw [Int.tdiv_eq_ediv (by omega) (by norm_num)]; omega

theorem publishRetryMsg_timely {now d : Int} {n : Notification} (hd : 0 ≤ d) {m : Msg}
    (hm : n.scheduledAt < m.due + 1000000) (hnow : m.due ≤ now) :
    (publishRetryMsg now n d).Timely := by
  have : 0 ≤ milliseconds d := by
    simp only [milliseconds]; rw [Int.tdiv_eq_ediv hd (by norm_num)]; omega
  simp only [Msg.Timely, Msg.due, publishRetryMsg] at hm hnow ⊢
  omega

section Job

variable {j : Job}

theorem Job.Punctual.retarget (h : j.Punctual) {n : Notification} {p : WorkerPc}
    (hs : n.scheduledAt = j.notification.scheduledAt)
    (hp : p = .publishRetry → n.attempts < maxRetries) :
    ({ j with notification := n, pc := p } : Job).Punctual :=
  ⟨h.1, hs.trans h.2.1, hp⟩

theorem Job.Punctual.scheduled_lt (h : j.Punctual) {now : Int} (hd : j.msg.due ≤ now) :
    j.notification.scheduledAt < now + 1000000 := by
  have := h.1; have := h.2.1
  simp only [Msg.Timely] at *; omega

end Job

namespace State

variable {s s' s₁ : State} {i : Nat} {j : Job} {m : Msg}

section Frame

theorem ApiFrame.refl (s : State) : s.ApiFrame s := ⟨rfl, rfl, rfl, rfl, [], by simp, by simp⟩

theorem ApiFrame.record (h : s.ApiFrame s₁) {e : Event} (he : e.byWorker = false) :
    s.ApiFrame (s₁.record e) := by
  obtain ⟨h₁, h₂, h₃, h₄, l, hl, hq⟩ := h
  refine ⟨h₁, h₂, h₃, h₄, l ++ [e], by simp [hl], fun e' he' => ?_⟩
  rcases List.mem_append.1 he' with he' | he'
  · exact hq e' he'
  · rw [List.mem_singleton.1 he']; exact he

theorem ApiFrame.setCall (h : s.ApiFrame s₁) (c : Call) : s.ApiFrame (s₁.setCall i c) := h

theorem ApiFrame.dropCall (h : s.ApiFrame s₁) : s.ApiFrame (s₁.dropCall i) := h

theorem ApiFrame.repoStep (s : State) (o : Outcome) (fresh : Nat) (c : RepoCall) :
    s.ApiFrame (s.repoStep o fresh c).1 := by
  rw [repoStep_fst]
  exact ⟨rfl, rfl, rfl, rfl, _, rfl, by simp [Event.byWorker]⟩

theorem ApiFrame.sends (h : s.ApiFrame s') {n : Notification} {t : Int} {ok : Bool}
    (he : Event.send n t ok ∈ s'.log) : Event.send n t ok ∈ s.log := by
  obtain ⟨-, -, -, -, l, hl, hq⟩ := h
  rw [hl, List.mem_append] at he
  exact he.resolve_right fun he => absurd (hq _ he) (by simp [Event.byWorker])

theorem advanceCall_frame (c : Call) (o : Outcome) (fresh : Nat) :
    s.ApiFrame (s.advanceCall i o fresh c) ∧ ∀ m ∈ (s.advanceCall i o fresh c).wait,
      m ∈ s.wait ∨ ∃ n, c = .publish n ∧ m = publishMsg s.now n ∧ m.accepted := by
  cases c with
  | publish n =>
    have h₁ : s.ApiFrame (s.publishWait o (publishMsg s.now n)) := by
      rcases publishWait_eq s (publishMsg s.now n) o with e | ⟨-, -, e⟩ <;> rw [e]
      · unfold State.enqueue; split
        · exact ⟨rfl, rfl, rfl, rfl, [], (List.append_nil _).symm, by simp⟩
        · exact ApiFrame.refl s
      · exact (ApiFrame.refl s).record (by rfl)
    have hw : ∀ m ∈ (s.publishWait o (publishMsg s.now n)).wait,
        m ∈ s.wait ∨ ∃ n', Call.publish n = .publish n' ∧ m = publishMsg s.now n' ∧ m.accepted := by
      intro m hm
      rcases publishWait_eq s (publishMsg s.now n) o with e | ⟨-, -, e⟩ <;> rw [e] at hm
      · unfold State.enqueue at hm; split at hm
        · rename_i ha
          simp only [Bool.and_eq_true] at ha
          simp only [setQueue, queue, List.mem_append, List.mem_singleton] at hm
          exact hm.imp_right fun h => ⟨n, rfl, h, h ▸ ha.2⟩
        · exact .inl hm
      · exact .inl hm
    rw [advanceCall_publish]
    split_ifs
    · exact ⟨(ApiFrame.refl s).dropCall, fun m hm => .inl hm⟩
    · exact ⟨(h₁.record (by rfl)).dropCall, hw⟩
    · exact ⟨h₁.dropCall, hw⟩
  | create c | get c | cancelLookup _ c | cancelDelete _ c =>
    rcases hp : s.repoStep o fresh c with ⟨s₁, r⟩
    have h₁ : s.ApiFrame s₁ := by simpa only [hp] using ApiFrame.repoStep s o fresh c
    have hw : s₁.wait = s.wait := by
      rw [(repoStep_eq hp).1]
    refine ⟨?_, fun m hm => .inl ?_⟩
    first
    | (rcases advanceCall_create (i := i) hp with ⟨_, -, he⟩ | ⟨_, -, he⟩ | ⟨-, -, he⟩ <;>
        rw [he] <;> first | exact h₁.setCall _ | exact h₁.dropCall)
    | (rcases advanceCall_get (i := i) hp with ⟨_, -, he⟩ | ⟨_, -, he⟩ | ⟨-, -, he⟩ <;>
        rw [he] <;> first | exact h₁.setCall _ | exact (h₁.record (by rfl)).dropCall | exact h₁.dropCall)
    | (rcases advanceCall_cancelLookup (i := i) hp with
        ⟨_, -, he⟩ | ⟨_, -, -, he⟩ | ⟨_, -, -, he⟩ | ⟨-, -, he⟩ <;> rw [he] <;>
        first | exact h₁.setCall _ | exact (h₁.record (by rfl)).setCall _ |
          exact (h₁.record (by rfl)).dropCall | exact h₁.dropCall)
    | (rcases advanceCall_cancelDelete (i := i) hp with ⟨_, -, he⟩ | ⟨-, he⟩ | ⟨-, -, he⟩ <;>
        rw [he] <;> first | exact h₁.setCall _ | exact (h₁.record (by rfl)).dropCall | exact h₁.dropCall)
    first
    | (rcases advanceCall_create (i := i) hp with ⟨_, -, he⟩ | ⟨_, -, he⟩ | ⟨-, -, he⟩ <;>
        rw [he] at hm <;> simpa [hw] using hm)
    | (rcases advanceCall_get (i := i) hp with ⟨_, -, he⟩ | ⟨_, -, he⟩ | ⟨-, -, he⟩ <;>
        rw [he] at hm <;> simpa [hw] using hm)
    | (rcases advanceCall_cancelLookup (i := i) hp with
        ⟨_, -, he⟩ | ⟨_, -, -, he⟩ | ⟨_, -, -, he⟩ | ⟨-, -, he⟩ <;> rw [he] at hm <;>
        simpa [hw] using hm)
    | (rcases advanceCall_cancelDelete (i := i) hp with ⟨_, -, he⟩ | ⟨-, he⟩ | ⟨-, -, he⟩ <;>
        rw [he] at hm <;> simpa [hw] using hm)

end Frame

section Released

theorem Released.of_frame (h : s.Released) (hf : s.ApiFrame s') : s'.Released := by
  obtain ⟨-, hp, hj, hn, -⟩ := id hf
  exact ⟨hp ▸ hn ▸ h.process, hj ▸ hn ▸ h.jobs, fun n t ok he => hn ▸ h.sent n t ok (hf.sends he)⟩

theorem Released.record (h : s.Released) {e : Event}
    (he : ∀ n t ok, e = .send n t ok → t ≤ s.now) : (s.record e).Released :=
  ⟨h.process, h.jobs, fun n t ok hn => by
    simp only [record_log, List.mem_append, List.mem_singleton] at hn
    exact hn.elim (h.sent n t ok) (he n t ok ·.symm)⟩

theorem Released.setJob (h : s.Released) {j' : Job} (hj' : j'.msg.due ≤ s.now) :
    (s.setJob i j').Released :=
  ⟨h.process, fun x hx => (List.mem_or_eq_of_mem_set hx).elim (h.jobs x) (· ▸ hj'), h.sent⟩

theorem Released.dropJob (h : s.Released) : (s.dropJob i).Released :=
  ⟨h.process, fun x hx => h.jobs x (List.mem_of_mem_eraseIdx hx), h.sent⟩

theorem Released.requeue (h : s.Released) (hd : m.due ≤ s.now) : (s.requeue m).Released := by
  refine ⟨fun x hx => ?_, h.jobs, h.sent⟩
  rcases List.mem_append.1 hx with hx | hx
  · exact h.process x hx
  · rw [List.mem_singleton.1 hx]; exact hd

theorem Released.enqueue (h : s.Released) (o : Outcome) (q : DelayQueue) (m : Msg) :
    (s.enqueue o q m).Released :=
  ⟨by simpa using h.process, by simpa using h.jobs, by simpa using h.sent⟩

theorem Released.setQueue (h : s.Released) (q : DelayQueue) (l : List Msg) :
    (s.setQueue q l).Released := by
  cases q <;> exact ⟨h.process, h.jobs, h.sent⟩

theorem Released.advanceJob (h : s.Released) (hj : s.jobs[i]? = some j) {o : Outcome}
    {s' : State} (hs : s.advanceJob i o j = some s') : s'.Released := by
  have hd := h.jobs j (List.getElem?_mem hj)
  have hrepo : ∀ c s₁ r, s.repoStep o 0 c = (s₁, r) → s₁.Released ∧ j.msg.due ≤ s₁.now :=
    fun c s₁ r hp => by
      have h₁ := h.of_frame (ApiFrame.repoStep s o 0 c)
      rw [hp] at h₁
      refine ⟨h₁, ?_⟩
      rw [(repoStep_eq hp).1]; exact hd
  have hq : ∀ {s₁ : State} (e : Event), (∀ n t ok, e ≠ .send n t ok) → s₁.Released →
      (s₁.record e).Released := fun e he h₁ => h₁.record fun n t ok h => absurd h (he n t ok)
  cases hjpc : j.pc with
  | revalidate c =>
    rcases hp : s.repoStep o 0 c with ⟨s₁, r⟩
    obtain ⟨h₁, hd₁⟩ := hrepo c s₁ r hp
    rcases advanceJob_revalidate hjpc hp hs with
      ⟨_, -, rfl⟩ | ⟨_, -, -, rfl⟩ | ⟨_, -, -, rfl⟩ | ⟨-, -, rfl⟩
    · exact h₁.setJob hd₁
    · exact (hq _ (by simp) h₁).setJob hd₁
    · exact (hq _ (by simp) (hq _ (by simp) h₁)).setJob hd₁
    · exact (hq _ (by simp) h₁).setJob hd₁
  | update c =>
    rcases hp : s.repoStep o 0 c with ⟨s₁, r⟩
    obtain ⟨h₁, hd₁⟩ := hrepo c s₁ r hp
    rcases advanceJob_update hjpc hp hs with ⟨_, -, rfl⟩ | ⟨_, -, rfl⟩ | ⟨-, -, rfl⟩ <;>
      exact h₁.setJob hd₁
  | send => exact absurd hjpc (advanceJob_pc hs)
  | publishRetry =>
    have h₁ := h.enqueue o .retry (publishRetryMsg s.now j.notification
      (calculateExponentialBackoff j.notification.attempts))
    rcases advanceJob_publishRetry hjpc hs with ⟨-, rfl⟩ | ⟨-, rfl⟩
    · exact (hq _ (by simp) h₁).setJob (by simpa using hd)
    · exact h₁.setJob (by simpa using hd)
  | ack =>
    rcases advanceJob_ack hjpc hs with ⟨-, rfl⟩ | ⟨-, rfl⟩
    · exact h.dropJob
    · exact h.dropJob.requeue hd
  | ackUnchecked =>
    rcases advanceJob_ackUnchecked hjpc hs with ⟨-, rfl⟩ | ⟨-, rfl⟩
    · exact (hq _ (by simp) h).dropJob
    · exact h.dropJob.requeue hd
  | nack =>
    rw [advanceJob_nack hjpc hs]
    exact h.dropJob.requeue hd

theorem Released.sendJob (h : s.Released) (hj : s.jobs[i]? = some j) {ok : Bool} {s' : State}
    (hs : s.sendJob i ok j = some s') : s'.Released := by
  have hd := h.jobs j (List.getElem?_mem hj)
  have h₁ : (s.record (.send j.notification s.now ok)).Released := h.record fun n t ok' he => by
    simp only [Event.send.injEq] at he
    rw [he.2.1]
  obtain ⟨-, ⟨-, rfl⟩ | ⟨-, -, rfl⟩ | ⟨-, -, rfl⟩⟩ := sendJob_cases hs <;> exact h₁.setJob hd

end Released

section Punctual

theorem Punctual.of_frame (h : s.Punctual) (hf : s.ApiFrame s')
    (hw : ∀ m ∈ s'.wait, m ∈ s.wait ∨ m.Timely) : s'.Punctual := by
  obtain ⟨hr, hp, hj, -, -⟩ := id hf
  refine ⟨fun x hx => ?_, hj ▸ h.jobs, fun n t ok he => h.sends n t ok (hf.sends he)⟩
  simp only [List.mem_append, hr, hp] at hx
  rcases hx with (hx | hx) | hx
  · exact (hw x hx).elim (fun hx => h.queued x (by simp [hx])) id
  all_goals exact h.queued x (by simp [hx])

theorem Punctual.record (h : s.Punctual) {e : Event}
    (he : ∀ n t ok, e = .send n t ok → n.scheduledAt < t + 1000000) : (s.record e).Punctual :=
  ⟨h.queued, h.jobs, fun n t ok hn => by
    simp only [record_log, List.mem_append, List.mem_singleton] at hn
    exact hn.elim (h.sends n t ok) (he n t ok ·.symm)⟩

theorem Punctual.setJob (h : s.Punctual) {j' : Job} (hj' : j'.Punctual) :
    (s.setJob i j').Punctual :=
  ⟨h.queued, fun x hx => (List.mem_or_eq_of_mem_set hx).elim (h.jobs x) (· ▸ hj'), h.sends⟩

theorem Punctual.dropJob (h : s.Punctual) : (s.dropJob i).Punctual :=
  ⟨h.queued, fun x hx => h.jobs x (List.mem_of_mem_eraseIdx hx), h.sends⟩

theorem Punctual.requeue (h : s.Punctual) (hm : m.Timely) : (s.requeue m).Punctual := by
  refine ⟨fun x hx => ?_, h.jobs, h.sends⟩
  simp only [requeue_queues, ← List.append_assoc, List.mem_append, List.mem_singleton] at hx
  rcases hx with hx | rfl
  · exact h.queued x (by simpa only [List.mem_append] using hx)
  · exact hm

theorem Punctual.enqueue (h : s.Punctual) (o : Outcome) (q : DelayQueue) (hm : m.Timely) :
    (s.enqueue o q m).Punctual := by
  refine ⟨fun x hx => ?_, by simpa using h.jobs, by simpa using h.sends⟩
  exact (State.mem_enqueue hx).elim (h.queued x) (· ▸ hm)

theorem Punctual.setQueue (h : s.Punctual) {q : DelayQueue} {rest : List Msg}
    (hq : s.queue q = m :: rest) : (s.setQueue q rest).Punctual := by
  exact ⟨fun x hx => h.queued x (State.mem_setQueue hq hx), by cases q <;> exact h.jobs,
    by cases q <;> exact h.sends⟩

theorem Punctual.advanceJob (h : s.Punctual) (hr : s.Released) (hj : s.jobs[i]? = some j)
    {o : Outcome} {s' : State} (hs : s.advanceJob i o j = some s') : s'.Punctual := by
  have hjob := h.jobs j (List.getElem?_mem hj)
  have hpc : ∀ {p : WorkerPc}, p ≠ .publishRetry → ({ j with pc := p } : Job).Punctual :=
    fun hp => hjob.retarget rfl (absurd · hp)
  have hquiet : ∀ {s₁ : State} (e : Event), (∀ n t ok, e ≠ .send n t ok) → s₁.Punctual →
      (s₁.record e).Punctual := fun e he h₁ => h₁.record fun n t ok h => absurd h (he n t ok)
  have hrepo : ∀ c s₁ r, s.repoStep o 0 c = (s₁, r) → s₁.Punctual := fun c s₁ r hp => by
    have h₁ := h.of_frame (ApiFrame.repoStep s o 0 c) fun m hm =>
      .inl (by simpa [repoStep_fst] using hm)
    rwa [hp] at h₁
  cases hjpc : j.pc with
  | revalidate c =>
    rcases hp : s.repoStep o 0 c with ⟨s₁, r⟩
    have h₁ := hrepo c s₁ r hp
    rcases advanceJob_revalidate hjpc hp hs with
      ⟨_, -, rfl⟩ | ⟨_, -, -, rfl⟩ | ⟨_, -, -, rfl⟩ | ⟨-, -, rfl⟩
    · exact h₁.setJob (hpc (by simp))
    · exact (hquiet _ (by simp) h₁).setJob (hpc (by simp))
    · exact (hquiet _ (by simp) (hquiet _ (by simp) h₁)).setJob (hpc (by simp))
    · exact (hquiet _ (by simp) h₁).setJob (hpc (by simp))
  | update c =>
    rcases hp : s.repoStep o 0 c with ⟨s₁, r⟩
    rcases advanceJob_update hjpc hp hs with ⟨_, -, rfl⟩ | ⟨_, -, rfl⟩ | ⟨-, -, rfl⟩ <;>
      exact (hrepo c s₁ r hp).setJob (hpc (by simp))
  | send => exact absurd hjpc (advanceJob_pc hs)
  | publishRetry =>
    have hd := (calculateExponentialBackoff_range (hjob.2.2 hjpc)).1
    have hm : j.notification.scheduledAt < j.msg.due + 1000000 := hjob.2.1 ▸ hjob.1
    have h₁ := h.enqueue o .retry
      (publishRetryMsg_timely hd hm (hr.jobs j (List.getElem?_mem hj)))
    rcases advanceJob_publishRetry hjpc hs with ⟨-, rfl⟩ | ⟨-, rfl⟩
    · exact (hquiet _ (by simp) h₁).setJob (hpc (by simp))
    · exact h₁.setJob (hpc (by simp))
  | ack =>
    rcases advanceJob_ack hjpc hs with ⟨-, rfl⟩ | ⟨-, rfl⟩
    · exact h.dropJob
    · exact h.dropJob.requeue hjob.1
  | ackUnchecked =>
    rcases advanceJob_ackUnchecked hjpc hs with ⟨-, rfl⟩ | ⟨-, rfl⟩
    · exact (hquiet _ (by simp) h).dropJob
    · exact h.dropJob.requeue hjob.1
  | nack =>
    rw [advanceJob_nack hjpc hs]
    exact h.dropJob.requeue hjob.1

theorem Punctual.sendJob (h : s.Punctual) (hr : s.Released) (hj : s.jobs[i]? = some j)
    {ok : Bool} {s' : State} (hs : s.sendJob i ok j = some s') : s'.Punctual := by
  have hjob := h.jobs j (List.getElem?_mem hj)
  have h₁ : (s.record (.send j.notification s.now ok)).Punctual := h.record fun n t ok' he => by
    simp only [Event.send.injEq] at he
    obtain ⟨rfl, rfl, -⟩ := he
    exact hjob.scheduled_lt (hr.jobs j (List.getElem?_mem hj))
  obtain ⟨-, ⟨-, rfl⟩ | ⟨-, -, rfl⟩ | ⟨-, hlt, rfl⟩⟩ := sendJob_cases hs
  · exact h₁.setJob (hjob.retarget rfl (by simp))
  · exact h₁.setJob (hjob.retarget rfl (by simp))
  · exact h₁.setJob (hjob.retarget rfl fun _ => hlt)

end Punctual

end State

theorem released_step {s s' : State} (h : s.Released) {a : Action} (hs : s.step a = some s') :
    s'.Released := by
  cases a with
  | create uuid req address chatID =>
    simp only [State.step] at hs
    split at hs <;> cases hs
    · exact ⟨h.process, h.jobs, h.sent⟩
    · exact h
  | get id | cancel id | expire id => cases hs; exact ⟨h.process, h.jobs, h.sent⟩
  | call i o fresh =>
    obtain ⟨c, -, rfl⟩ := Option.map_eq_some'.1 hs
    exact h.of_frame (State.advanceCall_frame c o fresh).1
  | deliver i =>
    obtain ⟨m, hm, rfl⟩ := Option.map_eq_some'.1 hs
    refine ⟨fun x hx => h.process x (List.mem_of_mem_eraseIdx hx), fun x hx => ?_, h.sent⟩
    rcases List.mem_append.1 hx with hx | hx
    · exact h.jobs x hx
    · rw [List.mem_singleton.1 hx]; exact h.process m (List.getElem?_mem hm)
  | job i o =>
    obtain ⟨j, hj, hs⟩ := Option.bind_eq_some.1 hs
    exact h.advanceJob hj hs
  | send i ok =>
    obtain ⟨j, hj, hs⟩ := Option.bind_eq_some.1 hs
    exact h.sendJob hj hs
  | crashJob i =>
    obtain ⟨j, hj, rfl⟩ := Option.map_eq_some'.1 hs
    exact h.dropJob.requeue (h.jobs j (List.getElem?_mem hj))
  | crashCall i =>
    obtain ⟨c, -, rfl⟩ := Option.map_eq_some'.1 hs
    exact ⟨h.process, h.jobs, h.sent⟩
  | deadLetter q =>
    obtain ⟨⟨m, rest⟩, hd, rfl⟩ := Option.map_eq_some'.1 hs
    exact (h.setQueue q rest).requeue (by cases q <;> exact (deadLetter_some hd).2)
  | tick δ =>
    cases hs
    have hle : s.now ≤ s.now + δ := by omega
    exact ⟨fun m hm => (h.process m hm).trans hle, fun j hj => (h.jobs j hj).trans hle,
      fun n t ok he => (h.sent n t ok he).trans hle⟩

theorem reach_released {P : State → Action → Bool} {s : State} (h : Reach P s) : s.Released := by
  induction h with
  | init now => constructor <;> simp [State.init]
  | next _ _ hs ih => exact released_step ih hs

theorem punctual_step {s s' : State} (h : s.Punctual) (hr : s.Released) {a : Action}
    (hs : s.step a = some s') : s'.Punctual := by
  cases a with
  | create uuid req address chatID =>
    simp only [State.step] at hs
    split at hs <;> cases hs
    · exact ⟨h.queued, h.jobs, h.sends⟩
    · exact h
  | get id | cancel id | expire id => cases hs; exact ⟨h.queued, h.jobs, h.sends⟩
  | call i o fresh =>
    obtain ⟨c, -, rfl⟩ := Option.map_eq_some'.1 hs
    obtain ⟨hf, hw⟩ := State.advanceCall_frame (i := i) c o fresh
    refine h.of_frame hf fun m hm => (hw m hm).imp_right ?_
    rintro ⟨n, rfl, rfl, ha⟩
    exact publishMsg_timely ha
  | deliver i =>
    obtain ⟨m, hm, rfl⟩ := Option.map_eq_some'.1 hs
    have hm' := List.getElem?_mem hm
    refine ⟨fun x hx => h.queued x ?_, fun x hx => ?_, h.sends⟩
    · simp only [List.mem_append] at hx ⊢
      exact hx.imp_right List.mem_of_mem_eraseIdx
    · rcases List.mem_append.1 hx with hx | hx
      · exact h.jobs x hx
      · rw [List.mem_singleton.1 hx]
        exact ⟨h.queued m (List.mem_append_right _ hm'), rfl, by simp⟩
  | job i o =>
    obtain ⟨j, hj, hs⟩ := Option.bind_eq_some.1 hs
    exact h.advanceJob hr hj hs
  | send i ok =>
    obtain ⟨j, hj, hs⟩ := Option.bind_eq_some.1 hs
    exact h.sendJob hr hj hs
  | crashJob i =>
    obtain ⟨j, hj, rfl⟩ := Option.map_eq_some'.1 hs
    exact h.dropJob.requeue (h.jobs j (List.getElem?_mem hj)).1
  | crashCall i =>
    obtain ⟨c, -, rfl⟩ := Option.map_eq_some'.1 hs
    exact ⟨h.queued, h.jobs, h.sends⟩
  | deadLetter q =>
    obtain ⟨⟨m, rest⟩, hd, rfl⟩ := Option.map_eq_some'.1 hs
    obtain ⟨hq, -⟩ := deadLetter_some hd
    have hm : m ∈ s.wait ++ s.retry ++ s.process := by cases q <;> simp_all [State.queue]
    exact (h.setQueue hq).requeue (h.queued m hm)
  | tick δ => cases hs; exact ⟨h.queued, h.jobs, h.sends⟩

theorem reach_punctual {P : State → Action → Bool} {s : State} (h : Reach P s) : s.Punctual := by
  induction h with
  | init now => constructor <;> simp [State.init]
  | next hr _ hs ih => exact punctual_step ih (reach_released hr) hs

theorem sent_scheduledAt_stored {P : State → Action → Bool} {s : State} (h : Reach P s)
    {n : Notification} {t : Int} {ok : Bool} (hs : Event.send n t ok ∈ s.log) :
    ∃ r, s.db.rows n.id = some r ∧ r.scheduledAt = n.scheduledAt := by
  obtain ⟨r, hr, e⟩ := (reach_traced h).held n
    (State.mem_held.2 (.inr (.inr (.inr ⟨_, hs, by simp [Event.held]⟩))))
  exact ⟨r, hr, congrArg Notification.scheduledAt e⟩

/-- On every run, every `Send` of a notification happens less than a millisecond before the
`scheduled_at` stored for it. -/
theorem send_after_scheduled_minus_ms {s : State} (h : Reach anyRun s) {n : Notification}
    {t : Int} {ok : Bool} (hs : Event.send n t ok ∈ s.log) :
    ∃ r, s.db.rows n.id = some r ∧ r.scheduledAt = n.scheduledAt ∧ r.scheduledAt < t + 1000000 := by
  obtain ⟨r, hr, e⟩ := sent_scheduledAt_stored h hs
  exact ⟨r, hr, e, e ▸ (reach_punctual h).sends n t ok hs⟩

/-- A notification due 1.5 ms after its `Publish`: the message expires after 1 ms, and the
worker sends at once. -/
private def firesEarly : List Action :=
  [.create 0 ⟨"a@b.co", "email", "s", "", 1500000, none⟩ (.ok ()) (.error ""), .call 0 .ok 1,
   .call 0 .ok 0, .call 0 .ok 0, .tick 1000000, .deadLetter .wait, .deliver 0, .job 0 .ok,
   .send 0 true]

private def sentEarly (s : State) : Bool :=
  s.log.any fun e => match e with
    | .send n t _ => decide (t < n.scheduledAt)
    | _ => false

set_option maxRecDepth 20000 in
theorem send_after_scheduled_minus_ms_on_early_send :
    ∃ s n t ok, Reach anyRun s ∧ Event.send n t ok ∈ s.log ∧
      ∃ r, s.db.rows n.id = some r ∧ r.scheduledAt = n.scheduledAt ∧
        r.scheduledAt < t + 1000000 := by
  have h : ((State.init 0).run anyRun firesEarly).map sentEarly = some true := by decide
  cases hrun : (State.init 0).run anyRun firesEarly with
  | none => simp [hrun] at h
  | some s =>
    simp only [hrun, Option.map_some', Option.some.injEq, sentEarly, List.any_eq_true] at h
    obtain ⟨e, he, hlt⟩ := h
    cases e <;> simp only [reduceCtorEq] at hlt
    have hR := reach_run (.init 0) hrun
    exact ⟨s, _, _, _, hR, he, send_after_scheduled_minus_ms hR he⟩

set_option maxRecDepth 20000 in
theorem send_before_scheduled :
    ∃ s, Reach reliable s ∧ ∃ n t ok, Event.send n t ok ∈ s.log ∧ t < n.scheduledAt ∧
      ∃ r, s.db.rows n.id = some r ∧ r.scheduledAt = n.scheduledAt := by
  have h : ((State.init 0).run reliable firesEarly).map sentEarly = some true := by decide
  cases hrun : (State.init 0).run reliable firesEarly with
  | none => simp [hrun] at h
  | some s =>
    simp only [hrun, Option.map_some', Option.some.injEq, sentEarly, List.any_eq_true] at h
    obtain ⟨e, he, hlt⟩ := h
    have hR := reach_run (.init 0) hrun
    cases e <;> simp only [reduceCtorEq, decide_eq_true_eq] at hlt
    exact ⟨s, hR, _, _, _, he, hlt, sent_scheduledAt_stored hR he⟩

end DelayedNotifier
