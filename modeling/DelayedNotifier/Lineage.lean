import DelayedNotifier.Schedule

/-!
# At most five `Send`s, spaced by the backoff, while the worker's own round trips succeed

`Consumer.handleMessage` and `handleSendError` run one retry protocol per notification, seen
in the log as its marks (`trail`): each `Send` with its outcome and each `PublishRetry` with
its delay. As designed (`RetryStep`), after `a` failed `Send`s, each followed by its
`PublishRetry` of `calculateExponentialBackoff` (10, 20, 40, 80 s), the next `Send` succeeds
and closes the notification, or fails and closes it at the fifth, or is followed by the next
`PublishRetry`.

The attempts are counted in the message and stored only at the end, so the protocol holds
only while each notification has one copy on its way. A failed `Update`, `PublishRetry` or
`Ack` of the worker, or a worker that stops, hands the broker back a copy that was already
sent (`sends_unbounded`). Without those, on every interleaving, with any failure of the API
calls, of the revalidating reads and of the transport, and with cancels, every notification
has at most one copy at a time (`State.Lineage`), every step of the system moves its trail by
at most one step of the protocol (`trail_step`), and it gets at most five `Send`s, the
`(k + 1)`-th at least `5 * 2 ^ k` seconds after the `k`-th (`sends_bounded_spaced`).
-/

namespace DelayedNotifier

inductive Mark
  | sent (ok : Bool)
  | retried (delay : Int)
  deriving DecidableEq, Repr

def Mark.isSent : Mark → Bool
  | .sent _ => true
  | .retried _ => false

def backoffSchedule : List Int := [10 * second, 20 * second, 40 * second, 80 * second]

def retryTrail (a : Nat) : List Mark :=
  (backoffSchedule.take a).flatMap fun d => [.sent false, .retried d]

/-- One step of the protocol: the `Send` after `a < 5` failed ones, or the `PublishRetry` after
the `(a + 1)`-th failed `Send` when `a + 1 < maxRetries`. -/
inductive RetryStep : List Mark → List Mark → Prop
  | send {a : Nat} (ha : a < 5) (ok : Bool) : RetryStep (retryTrail a) (retryTrail a ++ [.sent ok])
  | retry {a : Nat} (ha : a < 4) : RetryStep (retryTrail a ++ [.sent false]) (retryTrail (a + 1))

def RetryShape (T : List Mark) : Prop :=
  ∃ a < 5, T = retryTrail a ∨ ∃ ok, T = retryTrail a ++ [.sent ok]

section Protocol

variable {a : Nat} {T T' : List Mark}

theorem retryTrail_succ (ha : a < 4) :
    retryTrail (a + 1) =
      retryTrail a ++ [.sent false, .retried (calculateExponentialBackoff (a + 1))] := by
  rcases (by omega : a = 0 ∨ a = 1 ∨ a = 2 ∨ a = 3) with rfl | rfl | rfl | rfl <;> decide

theorem retryTrail_sends (ha : a < 5) : (retryTrail a).countP Mark.isSent = a := by
  rcases (by omega : a = 0 ∨ a = 1 ∨ a = 2 ∨ a = 3 ∨ a = 4) with rfl | rfl | rfl | rfl | rfl <;>
    decide

theorem RetryShape.init : RetryShape [] := ⟨0, by decide, .inl rfl⟩

theorem RetryStep.shape (h : RetryStep T T') : RetryShape T' := by
  cases h with
  | send ha ok => exact ⟨_, ha, .inr ⟨ok, rfl⟩⟩
  | retry ha => exact ⟨_, by omega, .inl rfl⟩

theorem RetryShape.sends_le (h : RetryShape T) : T.countP Mark.isSent ≤ 5 := by
  obtain ⟨a, ha, rfl | ⟨ok, rfl⟩⟩ := h
  · rw [retryTrail_sends ha]; omega
  · rw [List.countP_append, retryTrail_sends ha]; simp [Mark.isSent]; omega

end Protocol

def Event.mark (k : Nat) : Event → Option Mark
  | .send n _ ok => if n.id = k then some (.sent ok) else none
  | .publishRetry n d => if n.id = k then some (.retried d) else none
  | _ => none

def trail (k : Nat) (l : List Event) : List Mark := l.filterMap (Event.mark k)

def Event.sentAt (k : Nat) : Event → Option Int
  | .send n t _ => if n.id = k then some t else none
  | _ => none

def sendTimes (k : Nat) (l : List Event) : List Int := l.filterMap (Event.sentAt k)

def Spaced (ts : List Int) : Prop :=
  ∀ i t t', ts[i]? = some t → ts[i + 1]? = some t' → t + 5 * 2 ^ (i + 1) * second ≤ t'

section Log

variable {k : Nat} {l l' : List Event} {e : Event}

@[simp] theorem trail_append : trail k (l ++ l') = trail k l ++ trail k l' :=
  List.filterMap_append _ _ _

@[simp] theorem sendTimes_append : sendTimes k (l ++ l') = sendTimes k l ++ sendTimes k l' :=
  List.filterMap_append _ _ _

@[simp] theorem trail_singleton : trail k [e] = (e.mark k).toList := by
  simp only [trail, List.filterMap_cons, List.filterMap_nil]; cases e.mark k <;> rfl

@[simp] theorem sendTimes_singleton : sendTimes k [e] = (e.sentAt k).toList := by
  simp only [sendTimes, List.filterMap_cons, List.filterMap_nil]; cases e.sentAt k <;> rfl

theorem Event.mark_of_byWorker (he : e.byWorker = false) : e.mark k = none ∧ e.sentAt k = none := by
  cases e <;> simp_all [Event.byWorker, Event.mark, Event.sentAt]

theorem sendTimes_length (k : Nat) (l : List Event) :
    (sendTimes k l).length = (trail k l).countP Mark.isSent := by
  induction l with
  | nil => rfl
  | cons e l ih =>
    rw [← List.singleton_append, sendTimes_append, trail_append, List.length_append,
      List.countP_append, ih, sendTimes_singleton, trail_singleton]
    cases e <;> simp only [Event.mark, Event.sentAt] <;> (try split) <;> simp [Mark.isSent]

theorem Spaced.append {ts : List Int} (h : Spaced ts) {t' : Int}
    (ht : ∀ t ∈ ts.getLast?, t + 5 * 2 ^ ts.length * second ≤ t') : Spaced (ts ++ [t']) := by
  intro i t t'' hi hi'
  rcases lt_or_ge (i + 1) ts.length with hlt | hge
  · rw [List.getElem?_append_left (by omega)] at hi
    rw [List.getElem?_append_left hlt] at hi'
    exact h i t t'' hi hi'
  · have hlen : i + 1 = ts.length := by
      have := (List.getElem?_eq_some_iff.1 hi').1
      simp only [List.length_append, List.length_singleton] at this; omega
    rw [List.getElem?_append_left (by omega)] at hi
    rw [List.getElem?_append_right (by omega), hlen, Nat.sub_self] at hi'
    cases hi'
    refine hlen ▸ ht t ?_
    rw [List.getLast?_eq_getElem?, ← hlen, Nat.add_sub_cancel]; exact hi

end Log

/-- A copy of `n` on its way to a `Send`: it carries the attempts counted so far and no
`sent_at`, the trail holds that many failed `Send`s each with its `PublishRetry`, and it comes
due no earlier than the backoff after the last `Send`. -/
def Armed (l : List Event) (n : Notification) (due : Int) : Prop :=
  ∃ a : Nat, a < 5 ∧ n.attempts = a ∧ n.sentAt = none ∧ trail n.id l = retryTrail a ∧
    ∀ t ∈ (sendTimes n.id l).getLast?, t + 5 * 2 ^ a * second ≤ due

def Retrying (l : List Event) (n : Notification) : Prop :=
  ∃ a : Nat, a < 4 ∧ n.attempts = a + 1 ∧ n.sentAt = none ∧
    trail n.id l = retryTrail a ++ [.sent false]

def Closing (l : List Event) (n : Notification) : Prop :=
  (∃ a : Nat, a < 5 ∧ trail n.id l = retryTrail a ++ [.sent true] ∧ n.status = .sent ∧
      n.attempts = a ∧ n.sentAt.isSome) ∨
    (trail n.id l = retryTrail 4 ++ [.sent false] ∧ n.status = .failed ∧ n.attempts = 5 ∧
      n.sentAt = none)

/-- Where a worker is in the protocol of the notification it holds. -/
def Job.Lined (l : List Event) (j : Job) : Prop :=
  match j.pc with
  | .revalidate _ | .send => Armed l j.notification j.msg.due
  | .publishRetry => Retrying l j.notification
  | .update c => Closing l j.notification ∧
      (c = .update j.notification ∨ c = .updateInvalidate j.notification.id)
  | .ack | .ackUnchecked => True
  | .nack => False

def Call.Lined (l : List Event) : Call → Prop
  | .create (.save n) => n.attempts = 0 ∧ n.sentAt = none
  | .create (.saveFill n) | .publish n => n.attempts = 0 ∧ n.sentAt = none ∧ trail n.id l = []
  | .create _ => False
  | _ => True

def Call.carries (k : Nat) : Call → Bool
  | .create (.saveFill n) | .publish n => n.id == k
  | _ => false

def Job.live (k : Nat) (j : Job) : Bool := j.notification.id == k && j.pc != .ack

/-- The copies of `k` that can still lead to a `Send` or to the final `Update`. -/
def State.live (s : State) (k : Nat) : Nat :=
  s.calls.countP (Call.carries k) + (s.wait ++ s.retry ++ s.process).countP (·.body.id == k) +
    s.jobs.countP (Job.live k)

/-- Every copy of a notification is where its trail says, there is at most one live copy of
each, and every trail is one the protocol reaches with its `Send`s spaced by the backoff. -/
structure State.Lineage (s : State) : Prop where
  single : ∀ k, s.live k ≤ 1
  calls : ∀ c ∈ s.calls, c.Lined s.log
  queued : ∀ m ∈ s.wait ++ s.retry ++ s.process, Armed s.log m.body m.due
  jobs : ∀ j ∈ s.jobs, j.Lined s.log
  shape : ∀ k, RetryShape (trail k s.log)
  spaced : ∀ k, Spaced (sendTimes k s.log)

/-- The worker's `Update`, `PublishRetry` and `Ack`s succeed and no worker stops midway; the API
calls, the revalidating `GetByID`, the cache invalidation after an `Update` and the transport
may fail. -/
def workerSafe (s : State) : Action → Bool
  | .job i o => o == .ok || s.jobs[i]?.any fun j => match j.pc with
    | .revalidate _ | .update (.updateInvalidate _) => true
    | _ => false
  | .crashJob _ => false
  | _ => true

section Lists

variable {α : Type} (p : α → Bool) {l : List α} {i : Nat} {x : α}

theorem countP_set_add (h : l[i]? = some x) (y : α) :
    (l.set i y).countP p + (if p x then 1 else 0) = l.countP p + (if p y then 1 else 0) := by
  obtain ⟨pre, post, rfl, hs, -⟩ := pool_split h y
  rw [hs]
  simp only [List.countP_append, List.countP_cons]
  omega

theorem countP_eraseIdx_add (h : l[i]? = some x) :
    (l.eraseIdx i).countP p + (if p x then 1 else 0) = l.countP p := by
  obtain ⟨pre, post, rfl, -, he⟩ := pool_split h x
  rw [he]
  simp only [List.countP_append, List.countP_cons]
  omega

theorem two_le_countP (hx : l[i]? = some x) {i' : Nat} {y : α} (hy : l[i']? = some y)
    (hne : i' ≠ i) (px : p x) (py : p y) : 2 ≤ l.countP p := by
  have h₁ := countP_eraseIdx_add p hx
  have h₂ : 0 < (l.eraseIdx i).countP p :=
    List.countP_pos_iff.2 ⟨y, List.mem_eraseIdx_iff_getElem?.2 ⟨i', hne, hy⟩, py⟩
  rw [if_pos px] at h₁
  omega

theorem mem_set_eraseIdx {y z : α} (h : l[i]? = some x) (hz : z ∈ l.set i y) :
    z = y ∨ z ∈ l.eraseIdx i := by
  obtain ⟨pre, post, rfl, hs, he⟩ := pool_split h y
  rw [hs] at hz; rw [he]
  simp only [List.mem_append, List.mem_cons] at hz ⊢
  rcases hz with h | h | h <;> simp [h]

end Lists

namespace State

variable {s s' s₁ : State} {i k : Nat} {j : Job} {c : Call} {m : Msg}

theorem live_setJob (hj : s.jobs[i]? = some j) (j' : Job) :
    (s.setJob i j').live k + (if j.live k then 1 else 0) =
      s.live k + (if j'.live k then 1 else 0) := by
  have := countP_set_add (Job.live k) hj j'
  simp only [live, setJob_calls, setJob_queues, setJob_jobs]
  omega

theorem live_dropJob (hj : s.jobs[i]? = some j) :
    (s.dropJob i).live k + (if j.live k then 1 else 0) = s.live k := by
  have := countP_eraseIdx_add (Job.live k) hj
  simp only [live, dropJob_calls, dropJob_queues, dropJob_jobs]
  omega

theorem live_setCall (hc : s.calls[i]? = some c) (c' : Call) :
    (s.setCall i c').live k + (if c.carries k then 1 else 0) =
      s.live k + (if c'.carries k then 1 else 0) := by
  have := countP_set_add (Call.carries k) hc c'
  simp only [live, setCall_calls, setCall_queues, setCall_jobs]
  omega

theorem live_dropCall (hc : s.calls[i]? = some c) :
    (s.dropCall i).live k + (if c.carries k then 1 else 0) = s.live k := by
  have := countP_eraseIdx_add (Call.carries k) hc
  simp only [live, dropCall_calls, dropCall_queues, dropCall_jobs]
  omega

@[simp] theorem live_record (e : Event) : (s.record e).live k = s.live k := rfl

theorem live_requeue (m : Msg) :
    (s.requeue m).live k = s.live k + (if m.body.id == k then 1 else 0) := by
  simp only [live, requeue_calls, requeue_queues, requeue_jobs, ← List.append_assoc,
    List.countP_append, List.countP_singleton]
  omega

theorem live_enqueue (o : Outcome) (q : DelayQueue) (m : Msg) :
    (s.enqueue o q m).live k =
      s.live k + (if o.applied && m.accepted && m.body.id == k then 1 else 0) := by
  unfold enqueue
  split <;> rename_i ho
  · cases q <;> simp only [live, setQueue, queue, List.countP_append, List.countP_singleton, ho,
      Bool.true_and] <;> omega
  · simp [ho]

theorem live_publishWait (o : Outcome) (m : Msg) :
    (s.publishWait o m).live k = (s.enqueue o .wait m).live k := by
  unfold publishWait; split <;> rfl

theorem live_setQueue {q : DelayQueue} {rest : List Msg} (hq : s.queue q = m :: rest) :
    (s.setQueue q rest).live k + (if m.body.id == k then 1 else 0) = s.live k := by
  cases q <;> simp only [queue] at hq <;>
    simp only [live, setQueue, hq, List.countP_append, List.countP_cons] <;> omega

@[simp] theorem live_repoStep (o : Outcome) (fresh : Nat) (c : RepoCall) :
    (s.repoStep o fresh c).1.live k = s.live k := by
  rw [repoStep_fst]; rfl

end State

section Transport

variable {l l' : List Event} {n : Notification} {d : Int}

def SameFor (k : Nat) (l l' : List Event) : Prop :=
  trail k l' = trail k l ∧ sendTimes k l' = sendTimes k l

theorem sameFor_append {k : Nat} {l₂ : List Event}
    (hl : ∀ e ∈ l₂, e.mark k = none ∧ e.sentAt k = none) : SameFor k l (l ++ l₂) := by
  have h₁ : trail k l₂ = [] := List.filterMap_eq_nil_iff.2 fun e he => (hl e he).1
  have h₂ : sendTimes k l₂ = [] := List.filterMap_eq_nil_iff.2 fun e he => (hl e he).2
  simp [SameFor, h₁, h₂]

theorem Armed.transport (h : Armed l n d) (hq : SameFor n.id l l') : Armed l' n d := by
  obtain ⟨a, ha, h₁, h₂, h₃, h₄⟩ := h
  exact ⟨a, ha, h₁, h₂, hq.1.trans h₃, hq.2 ▸ h₄⟩

theorem Retrying.transport (h : Retrying l n) (hq : SameFor n.id l l') : Retrying l' n := by
  obtain ⟨a, ha, h₁, h₂, h₃⟩ := h
  exact ⟨a, ha, h₁, h₂, hq.1.trans h₃⟩

theorem Closing.transport (h : Closing l n) (hq : SameFor n.id l l') : Closing l' n := by
  rcases h with ⟨a, ha, h₁, h₂⟩ | ⟨h₁, h₂⟩
  · exact .inl ⟨a, ha, hq.1.trans h₁, h₂⟩
  · exact .inr ⟨hq.1.trans h₁, h₂⟩

theorem Job.Lined.transport {j : Job} (h : j.Lined l) (hq : SameFor j.notification.id l l') :
    j.Lined l' := by
  rcases j with ⟨msg, n, pc⟩
  cases pc <;> simp only [Job.Lined] at h ⊢
  · exact h.transport hq
  · exact h.transport hq
  · exact ⟨h.1.transport hq, h.2⟩
  · exact h.transport hq

theorem Call.Lined.transport {c : Call} (h : c.Lined l)
    (hq : ∀ k, c.carries k = true → SameFor k l l') : c.Lined l' := by
  rcases c with c | n | c | _ | _ <;> try trivial
  · rcases c with _ | _ | _ | n | n | _ | _ | _ | _ <;> try exact h
    exact ⟨h.1, h.2.1, ((hq n.id (by simp [Call.carries])).1).trans h.2.2⟩
  · exact ⟨h.1, h.2.1, ((hq n.id (by simp [Call.carries])).1).trans h.2.2⟩

def Moves (l l' : List Event) : Prop :=
  ∀ k, trail k l' = trail k l ∨ RetryStep (trail k l) (trail k l')

theorem armed_fresh (h₁ : n.attempts = 0) (h₂ : n.sentAt = none) (h₃ : trail n.id l = []) (d : Int) :
    Armed l n d := by
  have : sendTimes n.id l = [] := List.eq_nil_of_length_eq_zero (by rw [sendTimes_length, h₃]; rfl)
  exact ⟨0, by omega, h₁, h₂, h₃, by simp [this]⟩

end Transport

namespace State

variable {s s' : State}

theorem Lineage.quiet (h : s.Lineage) {l : List Event} (hlog : s'.log = s.log ++ l)
    (hl : ∀ e ∈ l, ∀ k, e.mark k = none ∧ e.sentAt k = none) (hsingle : ∀ k, s'.live k ≤ 1)
    (hcalls : ∀ c ∈ s'.calls, c ∈ s.calls ∨ c.Lined s.log)
    (hqueued : ∀ m ∈ s'.wait ++ s'.retry ++ s'.process,
      m ∈ s.wait ++ s.retry ++ s.process ∨ Armed s.log m.body m.due)
    (hjobs : ∀ j ∈ s'.jobs, j ∈ s.jobs ∨ j.Lined s.log) : s'.Lineage ∧ Moves s.log s'.log := by
  have hs : ∀ k, SameFor k s.log s'.log := fun k => hlog ▸ sameFor_append fun e he => hl e he k
  refine ⟨⟨hsingle, fun c hc => ?_, fun m hm => ?_, fun j hj => ?_, fun k => (hs k).1 ▸ h.shape k,
    fun k => (hs k).2 ▸ h.spaced k⟩, fun k => .inl (hs k).1⟩
  · exact ((hcalls c hc).elim (h.calls c) id).transport fun k _ => hs k
  · exact ((hqueued m hm).elim (h.queued m) id).transport (hs _)
  · exact ((hjobs j hj).elim (h.jobs j) id).transport (hs _)

end State

section Sources

variable {n : Notification} {fresh : Nat} {now : Int} {d : Db}

theorem validate_fresh {uuid : Nat} {req : CreateRequest} {address : Except String Unit}
    {chatID : Except String Int} (h : validate uuid now req address chatID = .ok n) :
    n.attempts = 0 ∧ n.sentAt = none := by
  unfold validate at h
  split_ifs at h <;> (try split at h) <;> cases h <;>
    exact ⟨rfl, rfl⟩

theorem toDBCreateParams_attempts {p : CreateNotificationParams} (h : toDBCreateParams n = .ok p) :
    p.attempts = int16 n.attempts := by
  unfold toDBCreateParams at h
  split at h <;> (try split_ifs at h) <;> cases h <;> rfl

theorem RepoCall.save_fill {n' : Notification} {c' : RepoCall} (hn : n.attempts = 0)
    (h : ((RepoCall.save n).step o fresh now d).2 = .inl c') (hc : c' = .saveFill n') :
    d.rows n'.id = none ∧ n'.attempts = 0 ∧ n'.sentAt = none := by
  rcases RepoCall.step_inl o _ h with ⟨_, h₁, -⟩ | ⟨_, _, h₁, -⟩ | ⟨_, r, h₁, hw, rfl⟩ |
    ⟨_, _, h₁, -⟩ | ⟨_, _, h₁, -⟩ <;> try cases h₁
  cases hc
  rcases RepoCall.written_cases hw with ⟨_, p, h₂, hp, hcr⟩ | ⟨_, h₂, -⟩ | ⟨_, h₂, -⟩ <;>
    cases h₂
  obtain ⟨hfree, -, hid, -, -, hatt, -, -, hsent, -⟩ := createNotification_ok hcr
  refine ⟨by simpa [toDomainModel, hid] using hfree, ?_, by simp [toDomainModel, hsent]⟩
  simp only [toDomainModel, hatt, toDBCreateParams_attempts hp, hn]; rfl

theorem RepoCall.update_step_ok (hr : d.rows n.id ≠ none) :
    ((RepoCall.update n).step .ok fresh now d).2 = .inl (.updateInvalidate n.id) := by
  obtain ⟨r, hr⟩ := Option.ne_none_iff_exists'.1 hr
  simp [RepoCall.step, updateNotificationStatus, toDBUpdateParams, hr, Outcome.commit]

end Sources

namespace State

variable {s s' s₁ : State} {i k : Nat} {j : Job} {c : Call}

theorem Traced.live_fresh (ht : s.Traced) (hk : s.db.rows k = none) :
    s.live k = 0 ∧ trail k s.log = [] := by
  have hno : ∀ n ∈ s.held, n.id ≠ k := fun n hn e => by
    obtain ⟨r, hr, -⟩ := ht.held n hn
    rw [e, hk] at hr; cases hr
  refine ⟨?_, List.filterMap_eq_nil_iff.2 fun e he => ?_⟩
  · simp only [live, Nat.add_eq_zero, List.countP_eq_zero]
    refine ⟨⟨fun c hc hk' => ?_, fun m hm hk' => ?_⟩, fun j hj hk' => ?_⟩
    · rcases c with c | n | _ | _ | _ <;> simp only [Call.carries, Bool.false_eq_true] at hk'
      · rcases c with _ | _ | _ | _ | n | _ | _ | _ | _ <;>
          simp only [Call.carries, Bool.false_eq_true, beq_iff_eq] at hk'
        exact hno n (mem_held.2 (.inr (.inr (.inl ⟨_, hc, by simp [Call.held, RepoCall.filling]⟩))))
          hk'
      · exact hno n (mem_held.2 (.inr (.inr (.inl ⟨_, hc, by simp [Call.held]⟩))))
          (by simpa using hk')
    · exact hno _ (mem_held.2 (.inl ⟨m, hm, rfl⟩)) (by simpa using hk')
    · exact hno j.notification (mem_held.2 (.inr (.inl ⟨j, hj, by simp [Job.held]⟩)))
        (by simp only [Job.live, Bool.and_eq_true, beq_iff_eq] at hk'; exact hk'.1)
  · cases e <;> simp only [Event.mark] <;> (try split) <;> try rfl
    all_goals exact absurd ‹_› (hno _ (mem_held.2 (.inr (.inr (.inr ⟨_, he, by simp [Event.held]⟩)))))

theorem Lineage.alone (h : s.Lineage) (hj : s.jobs[i]? = some j) (hl : j.live k = true) :
    (∀ c ∈ s.calls, c.carries k = false) ∧ (∀ m ∈ s.wait ++ s.retry ++ s.process, m.body.id ≠ k) ∧
      ∀ j' ∈ s.jobs.eraseIdx i, j'.live k = false := by
  have h₁ := h.single k
  have h₂ := countP_eraseIdx_add (Job.live k) hj
  simp only [live, hl, if_true] at h₁ h₂
  have h₃ : s.calls.countP (Call.carries k) = 0 ∧
      (s.wait ++ s.retry ++ s.process).countP (·.body.id == k) = 0 ∧
      (s.jobs.eraseIdx i).countP (Job.live k) = 0 := by omega
  simp only [List.countP_eq_zero, beq_iff_eq, Bool.not_eq_true] at h₃
  exact h₃

end State

namespace State

variable {s : State} {i : Nat} {c : Call}

theorem Lineage.advanceCall (h : s.Lineage) (ht : s.Traced) (hc : s.calls[i]? = some c)
    (o : Outcome) (fresh : Nat) :
    (s.advanceCall i o fresh c).Lineage ∧ Moves s.log (s.advanceCall i o fresh c).log := by
  obtain ⟨⟨hr, hp, hj, -, l, hlog, hl⟩, hw⟩ := advanceCall_frame (s := s) (i := i) c o fresh
  have hcl := h.calls c (List.getElem?_mem hc)
  have hset : ∀ {s₁ : State} (c' : Call), s₁.calls = s.calls → (∀ k, s₁.live k = s.live k) →
      c'.Lined s.log → (∀ k, c'.carries k = true → c.carries k = true ∨ s.live k = 0) →
      (∀ k, (s₁.setCall i c').live k ≤ 1) ∧
        ∀ c'' ∈ (s₁.setCall i c').calls, c'' ∈ s.calls ∨ c''.Lined s.log := by
    intro s₁ c' hcalls hlive hl' hcar
    refine ⟨fun k => ?_, fun c'' hc'' => ?_⟩
    · have e := live_setCall (k := k) (hcalls ▸ hc : s₁.calls[i]? = some c) c'
      have := h.single k
      rw [hlive] at e
      by_cases h₁ : c'.carries k = true
      · rcases hcar k h₁ with h₂ | h₂ <;> simp only [h₁, h₂, if_true] at e <;> omega
      · simp only [Bool.not_eq_true] at h₁
        simp only [h₁, Bool.false_eq_true, if_false] at e
        split_ifs at e <;> omega
    · rcases List.mem_or_eq_of_mem_set hc'' with hc'' | rfl
      · exact .inl (hcalls ▸ hc'')
      · exact .inr hl'
  have hdrop : ∀ {s₁ : State}, s₁.calls = s.calls →
      (∀ k, s₁.live k ≤ s.live k + if c.carries k then 1 else 0) →
      (∀ k, (s₁.dropCall i).live k ≤ 1) ∧
        ∀ c'' ∈ (s₁.dropCall i).calls, c'' ∈ s.calls ∨ c''.Lined s.log := by
    intro s₁ hcalls hlive
    refine ⟨fun k => ?_, fun c'' hc'' => .inl (hcalls ▸ List.mem_of_mem_eraseIdx hc'')⟩
    have e := live_dropCall (k := k) (hcalls ▸ hc : s₁.calls[i]? = some c)
    have := h.single k
    have := hlive k
    split_ifs at e this <;> omega
  have key : (∀ k, (s.advanceCall i o fresh c).live k ≤ 1) ∧
      ∀ c' ∈ (s.advanceCall i o fresh c).calls, c' ∈ s.calls ∨ c'.Lined s.log := by
    have hrepo : ∀ {c₀ : RepoCall} {s₁ : State} {r : RepoCall ⊕ RepoReply},
        s.repoStep o fresh c₀ = (s₁, r) →
          s₁.calls = s.calls ∧ (∀ k, s₁.live k = s.live k) ∧
            (c₀.step o fresh s.now s.db).2 = r := fun hp₀ => by
      obtain ⟨rfl, hr⟩ := repoStep_eq hp₀
      exact ⟨rfl, fun _ => rfl, hr⟩
    cases c with
    | publish n =>
      rw [advanceCall_publish]
      have hq : ∀ k, (s.publishWait o (publishMsg s.now n)).live k ≤
          s.live k + if (Call.publish n).carries k then 1 else 0 := fun k => by
        rw [live_publishWait, live_enqueue]
        show _ + (if (o.applied && (publishMsg s.now n).accepted && n.id == k) = true then 1 else 0)
          ≤ _ + if (n.id == k) = true then 1 else 0
        cases o.applied <;> cases (publishMsg s.now n).accepted <;> cases n.id == k <;> simp
      split_ifs
      · exact hdrop rfl fun k => Nat.le_add_right _ _
      · exact hdrop (by simp) hq
      · exact hdrop (by simp) hq
    | create c₀ =>
      rcases hp₀ : s.repoStep o fresh c₀ with ⟨s₁, r⟩
      obtain ⟨hcalls, hlive, hstep⟩ := hrepo hp₀
      rcases advanceCall_create (i := i) hp₀ with ⟨c', rfl, he⟩ | ⟨n, rfl, he⟩ | ⟨-, -, he⟩ <;>
        rw [he]
      · rcases c₀ with _ | _ | _ | n | n | _ | _ | _ | _ <;> simp only [Call.Lined] at hcl
        · rcases RepoCall.step_inl o _ hstep with ⟨_, h₁, -⟩ | ⟨_, _, h₁, -⟩ |
            ⟨_, r', h₁, -, rfl⟩ | ⟨_, _, h₁, -⟩ | ⟨_, _, h₁, -⟩ <;> try cases h₁
          obtain ⟨hfree, ha, hsa⟩ := RepoCall.save_fill hcl.1 hstep rfl
          obtain ⟨h₀, htr⟩ := ht.live_fresh hfree
          refine hset _ hcalls hlive ⟨ha, hsa, htr⟩ fun k hk => .inr ?_
          simp only [Call.carries, beq_iff_eq] at hk
          exact hk ▸ h₀
        · cases hstep
      · rcases RepoCall.step_record o c₀ hstep with ⟨_, rfl, -⟩ | hf
        · exact absurd hcl id
        · rcases c₀ with _ | _ | _ | _ | n' | _ | _ | _ | _ <;>
            simp only [RepoCall.filling, reduceCtorEq, Option.some.injEq] at hf
          · exact absurd hcl id
          · subst hf
            exact hset _ hcalls hlive hcl fun k hk => .inl hk
      · exact hdrop hcalls fun k => by rw [hlive]; omega
    | get c₀ | cancelLookup _ c₀ | cancelDelete _ c₀ =>
      rcases hp₀ : s.repoStep o fresh c₀ with ⟨s₁, r⟩
      obtain ⟨hcalls, hlive, -⟩ := hrepo hp₀
      have hrec : ∀ e : Event, (s₁.record e).calls = s.calls ∧ ∀ k, (s₁.record e).live k = s.live k :=
        fun e => ⟨hcalls, hlive⟩
      first
      | (rcases advanceCall_get (i := i) hp₀ with ⟨_, -, he⟩ | ⟨_, -, he⟩ | ⟨-, -, he⟩ <;> rw [he]
         · exact hset _ hcalls hlive trivial fun k hk => by simp [Call.carries] at hk
         · exact hdrop (hrec _).1 fun k => by rw [(hrec _).2]; omega
         · exact hdrop hcalls fun k => by rw [hlive]; omega)
      | (rcases advanceCall_cancelLookup (i := i) hp₀ with
          ⟨_, -, he⟩ | ⟨_, -, -, he⟩ | ⟨_, -, -, he⟩ | ⟨-, -, he⟩ <;> rw [he]
         · exact hset _ hcalls hlive trivial fun k hk => by simp [Call.carries] at hk
         · exact hset _ (hrec _).1 (hrec _).2 trivial fun k hk => by simp [Call.carries] at hk
         · exact hdrop (hrec _).1 fun k => by rw [(hrec _).2]; omega
         · exact hdrop hcalls fun k => by rw [hlive]; omega)
      | (rcases advanceCall_cancelDelete (i := i) hp₀ with ⟨_, -, he⟩ | ⟨-, he⟩ | ⟨-, -, he⟩ <;>
          rw [he]
         · exact hset _ hcalls hlive trivial fun k hk => by simp [Call.carries] at hk
         · exact hdrop (hrec _).1 fun k => by rw [(hrec _).2]; omega
         · exact hdrop hcalls fun k => by rw [hlive]; omega)
  refine h.quiet hlog (fun e he k => Event.mark_of_byWorker (hl e he)) key.1 key.2
    (fun m hm => ?_) (fun j hj' => .inl (hj ▸ hj'))
  rw [hr, hp] at hm
  simp only [List.mem_append] at hm
  rcases hm with (hm | hm) | hm
  · rcases hw m hm with hm | ⟨n, rfl, rfl, -⟩
    · exact .inl (by simp [hm])
    · obtain ⟨h₁, h₂, h₃⟩ := hcl
      exact .inr (armed_fresh h₁ h₂ h₃ _)
  · exact .inl (by simp [hm])
  · exact .inl (by simp [hm])

end State

theorem mem_sendTimes {k : Nat} {l : List Event} {t : Int} (h : t ∈ sendTimes k l) :
    ∃ n ok, Event.send n t ok ∈ l := by
  obtain ⟨e, he, hm⟩ := List.mem_filterMap.1 h
  cases e <;> simp only [Event.sentAt, reduceCtorEq] at hm
  split at hm <;> cases hm
  exact ⟨_, _, he⟩

theorem publishRetryMsg_due (now : Int) (n : Notification) (b : Nat) :
    (publishRetryMsg now n (5 * 2 ^ b * second)).due = now + 5 * 2 ^ b * second := by
  have : (5 * 2 ^ b * second : Int) = 5 * 2 ^ b * 1000 * 1000000 := by simp only [second]; omega
  rw [this]
  simp only [Msg.due, publishRetryMsg, milliseconds]
  rw [Int.mul_tdiv_cancel _ (by decide)]

namespace State

variable {s s₁ : State} {i : Nat} {j : Job}

theorem live_congr (hc : s₁.calls = s.calls)
    (hq : s₁.wait = s.wait ∧ s₁.retry = s.retry ∧ s₁.process = s.process) (hj : s₁.jobs = s.jobs)
    (k : Nat) : s₁.live k = s.live k := by
  obtain ⟨h₁, h₂, h₃⟩ := hq
  simp only [live, hc, h₁, h₂, h₃, hj]

theorem Lineage.setJob_quiet (h : s.Lineage) (hj : s.jobs[i]? = some j) {l : List Event}
    (hc : s₁.calls = s.calls) (hq : s₁.wait = s.wait ∧ s₁.retry = s.retry ∧ s₁.process = s.process)
    (hjs : s₁.jobs = s.jobs) (hlog : s₁.log = s.log ++ l)
    (hl : ∀ e ∈ l, ∀ k, e.mark k = none ∧ e.sentAt k = none) {j' : Job}
    (hid : j'.notification.id = j.notification.id) (hpc : j'.pc = .ack ∨ j.pc ≠ .ack)
    (hj' : j'.Lined s.log) : (s₁.setJob i j').Lineage ∧ Moves s.log (s₁.setJob i j').log := by
  refine h.quiet hlog hl (fun k => ?_) (fun c hc' => .inl (hc ▸ hc')) (fun m hm => .inl ?_)
    (fun x hx => ?_)
  · have e := live_setJob (k := k) (hjs ▸ hj : s₁.jobs[i]? = some j) j'
    have := h.single k
    rw [live_congr hc hq hjs] at e
    have himp : j'.live k = true → j.live k = true := by
      simp only [Job.live, Bool.and_eq_true, beq_iff_eq, bne_iff_ne, ne_eq, hid]
      rintro ⟨rfl, h'⟩; exact ⟨rfl, hpc.resolve_left h'⟩
    by_cases h₁ : j'.live k = true
    · simp only [h₁, himp h₁, if_true] at e; omega
    · simp only [Bool.not_eq_true] at h₁
      simp only [h₁, Bool.false_eq_true, if_false] at e
      split_ifs at e <;> omega
  · obtain ⟨h₁, h₂, h₃⟩ := hq
    simpa [h₁, h₂, h₃] using hm
  · rcases List.mem_or_eq_of_mem_set hx with hx | rfl
    · exact .inl (hjs ▸ hx)
    · exact .inr hj'

theorem Lineage.record_quiet (h : s.Lineage) (e : Event)
    (he : ∀ k, e.mark k = none ∧ e.sentAt k = none) : (s.record e).Lineage :=
  (h.quiet (l := [e]) (rfl : (s.record e).log = _) (by simpa using he) h.single (fun c hc => .inl hc) (fun m hm => .inl hm)
    (fun x hx => .inl hx)).1

theorem Lineage.dropJob (h : s.Lineage) (hj : s.jobs[i]? = some j) :
    (s.dropJob i).Lineage ∧ Moves s.log (s.dropJob i).log := by
  refine h.quiet (l := []) (by simp) (by simp) (fun k => ?_) (fun c hc => .inl hc)
    (fun m hm => .inl hm) (fun x hx => .inl (List.mem_of_mem_eraseIdx hx))
  have e := live_dropJob (k := k) hj
  have := h.single k
  split_ifs at e <;> omega

theorem Lineage.others (h : s.Lineage) (hj : s.jobs[i]? = some j)
    (hl : j.live j.notification.id = true) {e : Event}
    (he : ∀ k, k ≠ j.notification.id → e.mark k = none ∧ e.sentAt k = none) :
    (∀ c ∈ s.calls, c.Lined (s.log ++ [e])) ∧
      (∀ m ∈ s.wait ++ s.retry ++ s.process, Armed (s.log ++ [e]) m.body m.due) ∧
        ∀ x ∈ s.jobs.eraseIdx i, x.Lined (s.log ++ [e]) := by
  obtain ⟨hc, hq, hx⟩ := h.alone hj hl
  have hs : ∀ k, k ≠ j.notification.id → SameFor k s.log (s.log ++ [e]) := fun k hk =>
    sameFor_append (by simpa using he k hk)
  refine ⟨fun c hc' => (h.calls c hc').transport fun k hk => hs k ?_,
    fun m hm => (h.queued m hm).transport (hs _ (hq m hm)), fun x hx' => ?_⟩
  · rintro rfl; rw [hc c hc'] at hk; cases hk
  · by_cases hid : x.notification.id = j.notification.id
    · have hack := hx x hx'
      simp only [Job.live, hid, beq_self_eq_true, Bool.true_and, bne_eq_false_iff_eq] at hack
      rcases x with ⟨_, _, pc⟩
      cases hack; trivial
    · exact (h.jobs x (List.mem_of_mem_eraseIdx hx')).transport (hs _ hid)

end State

namespace State

variable {s : State} {i : Nat} {j : Job}

theorem Lineage.advanceJob (h : s.Lineage) (ht : s.Traced) (hr : s.Released)
    (hj : s.jobs[i]? = some j) {o : Outcome}
    (ho : o = .ok ∨ (∃ c, j.pc = .revalidate c) ∨ ∃ k, j.pc = .update (.updateInvalidate k))
    {s' : State} (hs : s.advanceJob i o j = some s') : s'.Lineage ∧ Moves s.log s'.log := by
  have hjl := h.jobs j (List.getElem?_mem hj)
  have hunm : ∀ {l : List Event} (e : Event), (∀ e' ∈ l, ∀ k, e'.mark k = none ∧ e'.sentAt k = none) →
      (∀ k, e.mark k = none ∧ e.sentAt k = none) →
        ∀ e' ∈ l ++ [e], ∀ k, e'.mark k = none ∧ e'.sentAt k = none := fun e hl he e' he' => by
    rcases List.mem_append.1 he' with he' | he'
    · exact hl e' he'
    · rw [List.mem_singleton.1 he']; exact he
  have hrepo : ∀ {c : RepoCall} {s₁ : State} {r : RepoCall ⊕ RepoReply},
      s.repoStep o 0 c = (s₁, r) → s₁.calls = s.calls ∧
        (s₁.wait = s.wait ∧ s₁.retry = s.retry ∧ s₁.process = s.process) ∧ s₁.jobs = s.jobs ∧
          (∃ l, s₁.log = s.log ++ l ∧ ∀ e ∈ l, ∀ k, e.mark k = none ∧ e.sentAt k = none) ∧
            (c.step o 0 s.now s.db).2 = r := fun hp => by
    obtain ⟨rfl, hr⟩ := repoStep_eq hp
    exact ⟨rfl, ⟨rfl, rfl, rfl⟩, rfl, ⟨_, rfl, by simp [Event.mark, Event.sentAt]⟩, hr⟩
  cases hjpc : j.pc with
  | revalidate c =>
    rcases hp : s.repoStep o 0 c with ⟨s₁, r⟩
    obtain ⟨hc₁, hq₁, hj₁, ⟨l, hl₁, hu⟩, -⟩ := hrepo hp
    simp only [Job.Lined, hjpc] at hjl
    have hne : j.pc ≠ .ack := by rw [hjpc]; simp
    have hfound : ∀ n : Notification, ∀ k, (Event.found n).mark k = none ∧
        (Event.found n).sentAt k = none := fun _ _ => ⟨rfl, rfl⟩
    have hskip : ∀ id st, ∀ k, (Event.skip id st).mark k = none ∧
        (Event.skip id st).sentAt k = none := fun _ _ _ => ⟨rfl, rfl⟩
    rcases advanceJob_revalidate hjpc hp hs with
      ⟨c', -, rfl⟩ | ⟨n, -, -, rfl⟩ | ⟨n, -, -, rfl⟩ | ⟨-, -, rfl⟩
    · exact h.setJob_quiet hj hc₁ hq₁ hj₁ hl₁ hu (by rfl) (.inr hne) (by exact hjl)
    · exact h.setJob_quiet hj (by exact hc₁) (by exact hq₁) (by exact hj₁)
        (by rw [record_log, hl₁, List.append_assoc]) (hunm _ hu (hfound n)) (by rfl) (.inr hne)
        (by exact hjl)
    · exact h.setJob_quiet hj (by exact hc₁) (by exact hq₁) (by exact hj₁)
        (by simp only [record_log, hl₁, List.append_assoc])
        (hunm _ (hunm _ hu (hfound n)) (hskip j.notification.id (some n.status))) (by rfl)
        (.inl (by rfl)) (by exact trivial)
    · exact h.setJob_quiet hj (by exact hc₁) (by exact hq₁) (by exact hj₁)
        (by rw [record_log, hl₁, List.append_assoc]) (hunm _ hu (hskip j.notification.id none))
        (by rfl) (.inr hne) (by exact trivial)
  | send => exact absurd hjpc (advanceJob_pc hs)
  | update c =>
    rcases hp : s.repoStep o 0 c with ⟨s₁, r⟩
    obtain ⟨hc₁, hq₁, hj₁, ⟨l, hl₁, hu⟩, hstep⟩ := hrepo hp
    simp only [Job.Lined, hjpc] at hjl
    have hrow : s.db.rows j.notification.id ≠ none := by
      obtain ⟨r, hr, -⟩ := ht.job hj j.notification (by simp [Job.held])
      rw [hr]; simp
    have hreply : r = .inl (.updateInvalidate j.notification.id) ∨ r = .inr .done := by
      rcases hjl.2 with rfl | rfl
      · obtain rfl : o = .ok := by simpa [hjpc] using ho
        exact .inl (hstep ▸ RepoCall.update_step_ok hrow)
      · exact .inr (hstep ▸ rfl)
    have hne : j.pc ≠ .ack := by rw [hjpc]; simp
    rcases advanceJob_update hjpc hp hs with ⟨c', hr', rfl⟩ | ⟨e, hr', rfl⟩ | ⟨-, -, rfl⟩
    · obtain rfl : c' = .updateInvalidate j.notification.id := by
        rcases hreply with h' | h' <;> rw [h'] at hr' <;> cases hr'; rfl
      exact h.setJob_quiet hj hc₁ hq₁ hj₁ hl₁ hu (by rfl) (.inr hne) (by exact ⟨hjl.1, .inr rfl⟩)
    · rcases hreply with h' | h' <;> rw [h'] at hr' <;> cases hr'
    · exact h.setJob_quiet hj hc₁ hq₁ hj₁ hl₁ hu (by rfl) (.inl (by rfl)) (by exact trivial)
  | publishRetry =>
    obtain rfl : o = .ok := by simpa [hjpc] using ho
    simp only [Job.Lined, hjpc] at hjl
    obtain ⟨a, ha, hatt, hsent, htr⟩ := hjl
    have hd : calculateExponentialBackoff j.notification.attempts = 5 * 2 ^ (a + 1) * second := by
      rw [hatt, ← Nat.cast_succ, calculateExponentialBackoff_of_le (by omega)]
    have hacc : (publishRetryMsg s.now j.notification (5 * 2 ^ (a + 1) * second)).accepted := by
      rw [← hd]; exact publishRetryMsg_accepted _ _ (by simp only [hatt, maxRetries]; omega)
    rcases advanceJob_publishRetry hjpc hs with ⟨-, rfl⟩ | ⟨hne, -⟩
    swap; exact absurd rfl hne
    rw [hd]
    set n := j.notification with hn
    set e : Event := .publishRetry n (5 * 2 ^ (a + 1) * second)
    set m' := publishRetryMsg s.now n (5 * 2 ^ (a + 1) * second)
    have hlive : j.live n.id = true := by simp [Job.live, hjpc]
    obtain ⟨hoc, hoq, hoj⟩ := h.others hj hlive (e := e) fun k hk => by
      simp [e, Event.mark, Event.sentAt, Ne.symm hk]
    have hst : ∀ k, sendTimes k (s.log ++ [e]) = sendTimes k s.log := fun k => by
      simp [e, Event.sentAt]
    have htr' : trail n.id (s.log ++ [e]) = retryTrail (a + 1) := by
      rw [retryTrail_succ ha, trail_append, htr, trail_singleton, ← hatt, hd]
      simp [e, Event.mark]
    have hoth : ∀ k, k ≠ n.id → trail k (s.log ++ [e]) = trail k s.log := fun k hk => by
      simp [e, Event.mark, Ne.symm hk]
    have hm' : Armed (s.log ++ [e]) m'.body m'.due := by
      refine ⟨a + 1, by omega, by simp [m', publishRetryMsg, hatt], hsent, htr', fun t ht => ?_⟩
      rw [hst] at ht
      obtain ⟨_, _, hsend⟩ := mem_sendTimes (List.mem_of_mem_getLast? ht)
      have := hr.sent _ _ _ hsend
      rw [publishRetryMsg_due]; omega
    have hjs : ((s.enqueue .ok .retry m').record e).jobs[i]? = some j := by simpa using hj
    have hlog : (((s.enqueue .ok .retry m').record e).setJob i { j with pc := .ack }).log =
        s.log ++ [e] := by simp
    refine ⟨⟨fun k => ?_, by simpa using hoc, fun m hm => hlog ▸ ?_, fun x hx => hlog ▸ ?_,
      fun k => ?_, fun k => by rw [hlog, hst]; exact h.spaced k⟩, fun k => ?_⟩
    · have e₁ := live_setJob (k := k) hjs { j with pc := .ack }
      have e₂ := live_enqueue (s := s) (k := k) .ok .retry m'
      have := h.single k
      have hjk : j.live k = (n.id == k) := by simp [Job.live, hjpc, n]
      have hak : ({ j with pc := .ack } : Job).live k = false := by simp [Job.live]
      have hmk : (Outcome.ok.applied && m'.accepted && m'.body.id == k) = (n.id == k) := by
        rw [hacc]; rfl
      rw [hjk, hak, live_record, ← hn] at e₁
      rw [hmk] at e₂
      by_cases hk : (n.id == k) = true <;>
        simp only [hk, if_true, if_false, Bool.false_eq_true, Nat.add_zero] at e₁ e₂ <;> omega
    · have hq := State.mem_enqueue (o := .ok) (q := .retry) (m := m') (by simpa using hm)
      rcases hq with hq | rfl
      · exact hoq m hq
      · exact hm'
    · rcases mem_set_eraseIdx hjs hx with rfl | hx
      · trivial
      · exact hoj x (by simpa using hx)
    · rw [hlog]
      by_cases hk : k = n.id
      · subst hk; rw [htr']; exact (RetryStep.retry ha).shape
      · rw [hoth k hk]; exact h.shape k
    · rw [hlog]
      by_cases hk : k = n.id
      · subst hk; rw [htr', htr]; exact .inr (RetryStep.retry ha)
      · exact .inl (hoth k hk)
  | ack =>
    obtain rfl : o = .ok := by simpa [hjpc] using ho
    rcases advanceJob_ack hjpc hs with ⟨-, rfl⟩ | ⟨hne, -⟩
    · exact h.dropJob hj
    · exact absurd rfl hne
  | ackUnchecked =>
    obtain rfl : o = .ok := by simpa [hjpc] using ho
    rcases advanceJob_ackUnchecked hjpc hs with ⟨-, rfl⟩ | ⟨hne, -⟩
    · exact ⟨((h.record_quiet (.ackedUnchecked _) fun _ => ⟨rfl, rfl⟩).dropJob hj).1,
        fun k => .inl (by simp [Event.mark])⟩
    · exact absurd rfl hne
  | nack => simp only [Job.Lined, hjpc] at hjl

end State

namespace State

variable {s : State} {i : Nat} {j : Job}

theorem Lineage.sendJob (h : s.Lineage) (hr : s.Released) (hj : s.jobs[i]? = some j) {ok : Bool}
    {s' : State} (hs : s.sendJob i ok j = some s') : s'.Lineage ∧ Moves s.log s'.log := by
  obtain ⟨hjpc, hcases⟩ := sendJob_cases hs
  have hjl := h.jobs j (List.getElem?_mem hj)
  simp only [Job.Lined, hjpc] at hjl
  obtain ⟨a, ha, hatt, hsent, htr, htime⟩ := hjl
  set e : Event := .send j.notification s.now ok
  have hlive : j.live j.notification.id = true := by simp [Job.live, hjpc]
  obtain ⟨hoc, hoq, hoj⟩ := h.others hj hlive (e := e) fun k hk => by
    simp [e, Event.mark, Event.sentAt, Ne.symm hk]
  have htr' : trail j.notification.id (s.log ++ [e]) = retryTrail a ++ [.sent ok] := by
    simp [e, htr, Event.mark]
  have hoth : ∀ k, k ≠ j.notification.id →
      trail k (s.log ++ [e]) = trail k s.log ∧ sendTimes k (s.log ++ [e]) = sendTimes k s.log :=
    fun k hk => by simp [e, Event.mark, Event.sentAt, Ne.symm hk]
  have hsp : Spaced (sendTimes j.notification.id (s.log ++ [e])) := by
    have hlen : (sendTimes j.notification.id s.log).length = a := by
      rw [sendTimes_length, htr, retryTrail_sends ha]
    have hdue := hr.jobs j (List.getElem?_mem hj)
    simp only [e, sendTimes_append, sendTimes_singleton, Event.sentAt, if_true, Option.toList]
    exact (h.spaced _).append fun t ht => hlen ▸ (htime t ht).trans hdue
  have hjs : (s.record e).jobs[i]? = some j := hj
  have assemble : ∀ j' : Job, j'.notification.id = j.notification.id → j'.pc ≠ .ack →
      j'.Lined (s.log ++ [e]) → ((s.record e).setJob i j').Lineage ∧
        Moves s.log ((s.record e).setJob i j').log := by
    intro j' hid hpc hj'
    refine ⟨⟨fun k => ?_, hoc, hoq, fun x hx => ?_, fun k => ?_, fun k => ?_⟩, fun k => ?_⟩
    · have e₁ := live_setJob (k := k) hjs j'
      have := h.single k
      have hl : j'.live k = j.live k := by
        have : (j'.pc != .ack) = true := by simpa using hpc
        simp [Job.live, hid, hjpc, this]
      rw [hl, live_record] at e₁
      omega
    · rcases mem_set_eraseIdx hjs hx with rfl | hx
      · exact hj'
      · exact hoj x hx
    · show RetryShape (trail k (s.log ++ [e]))
      by_cases hk : k = j.notification.id
      · subst hk; rw [htr']; exact ⟨a, ha, .inr ⟨ok, rfl⟩⟩
      · rw [(hoth k hk).1]; exact h.shape k
    · show Spaced (sendTimes k (s.log ++ [e]))
      by_cases hk : k = j.notification.id
      · subst hk; exact hsp
      · rw [(hoth k hk).2]; exact h.spaced k
    · show trail k (s.log ++ [e]) = trail k s.log ∨ RetryStep (trail k s.log) (trail k (s.log ++ [e]))
      by_cases hk : k = j.notification.id
      · subst hk; rw [htr', htr]; exact .inr (.send ha ok)
      · exact .inl (hoth k hk).1
  rcases hcases with ⟨rfl, rfl⟩ | ⟨rfl, hmax, rfl⟩ | ⟨rfl, hlt, rfl⟩
  · exact assemble _ rfl (by simp) ⟨.inl ⟨a, ha, htr', rfl, hatt, rfl⟩, .inl rfl⟩
  · obtain rfl : a = 4 := by simp only [maxRetries] at hmax; omega
    exact assemble _ rfl (by simp) ⟨.inr ⟨htr', rfl, by simp [hatt], hsent⟩, .inl rfl⟩
  · exact assemble _ rfl (by simp) ⟨a, by simp only [maxRetries] at hlt; omega, by simp [hatt],
      hsent, htr'⟩

end State

theorem lineage_step {s s' : State} (h : s.Lineage) (ht : s.Traced) (hr : s.Released) {a : Action}
    (hw : workerSafe s a = true) (hs : s.step a = some s') : s'.Lineage ∧ Moves s.log s'.log := by
  have haddCall : ∀ c : Call, (∀ k, c.carries k = false) → c.Lined s.log →
      ({ s with calls := s.calls ++ [c] } : State).Lineage ∧
        Moves s.log ({ s with calls := s.calls ++ [c] } : State).log := fun c hc hl =>
    h.quiet (l := []) (by simp) (by simp) (fun k => by simpa [State.live, hc] using h.single k)
      (fun c' hc' => (List.mem_append.1 hc').imp_right fun h' => by
        rw [List.mem_singleton.1 h']; exact hl)
      (fun m hm => .inl hm) (fun j hj => .inl hj)
  cases a with
  | create uuid req address chatID =>
    simp only [State.step] at hs
    split at hs <;> cases hs
    · exact haddCall _ (fun k => rfl) (validate_fresh ‹_›)
    · exact ⟨h, fun k => .inl rfl⟩
  | get id => cases hs; exact haddCall _ (fun k => rfl) trivial
  | cancel id => cases hs; exact haddCall _ (fun k => rfl) trivial
  | call i o fresh =>
    obtain ⟨c, hc, rfl⟩ := Option.map_eq_some'.1 hs
    exact h.advanceCall ht hc o fresh
  | deliver i =>
    obtain ⟨m, hm, rfl⟩ := Option.map_eq_some'.1 hs
    have hmq : m ∈ s.wait ++ s.retry ++ s.process := by simp [List.getElem?_mem hm]
    refine h.quiet (l := []) (by simp) (by simp) (fun k => ?_) (fun c hc => .inl hc)
      (fun m' hm' => .inl ?_) (fun j hj => ?_)
    · have e := countP_eraseIdx_add (·.body.id == k) hm
      have := h.single k
      have hl : Job.live k ⟨m, m.body, .revalidate (.getByID m.body.id)⟩ = (m.body.id == k) := by
        simp [Job.live]
      simp only [State.live, List.countP_append, List.countP_singleton, hl] at e this ⊢
      omega
    · simp only [List.mem_append] at hm' ⊢
      exact hm'.imp_right List.mem_of_mem_eraseIdx
    · rcases List.mem_append.1 hj with hj | hj
      · exact .inl hj
      · rw [List.mem_singleton.1 hj]; exact .inr (h.queued m hmq)
  | job i o =>
    obtain ⟨j, hj, hs⟩ := Option.bind_eq_some.1 hs
    have ho : o = .ok ∨ (∃ c, j.pc = .revalidate c) ∨
        ∃ k, j.pc = .update (.updateInvalidate k) := by
      simp only [workerSafe, hj, Option.any_some, Bool.or_eq_true, beq_iff_eq] at hw
      refine hw.imp_right fun hw => ?_
      split at hw
      · exact .inl ⟨_, ‹_›⟩
      · exact .inr ⟨_, ‹_›⟩
      · cases hw
    exact h.advanceJob ht hr hj ho hs
  | send i ok =>
    obtain ⟨j, hj, hs⟩ := Option.bind_eq_some.1 hs
    exact h.sendJob hr hj hs
  | crashJob i => simp [workerSafe] at hw
  | crashCall i =>
    obtain ⟨c, hc, rfl⟩ := Option.map_eq_some'.1 hs
    refine h.quiet (l := []) (by simp) (by simp) (fun k => ?_)
      (fun c hc' => .inl (List.mem_of_mem_eraseIdx hc')) (fun m hm => .inl hm) (fun j hj => .inl hj)
    have e := State.live_dropCall (k := k) hc
    have := h.single k
    split_ifs at e <;> omega
  | deadLetter q =>
    obtain ⟨⟨m, rest⟩, hd, rfl⟩ := Option.map_eq_some'.1 hs
    obtain ⟨hq, -⟩ := deadLetter_some hd
    have hmq : m ∈ s.wait ++ s.retry ++ s.process := by cases q <;> simp_all [State.queue]
    refine h.quiet (l := []) (by cases q <;> simp [State.setQueue]) (by simp) (fun k => ?_)
      (fun c hc => .inl (by cases q <;> exact hc)) (fun m' hm' => ?_)
      (fun j hj => .inl (by cases q <;> exact hj))
    · have e := State.live_setQueue (k := k) hq
      have := h.single k
      rw [State.live_requeue]
      omega
    · rcases State.mem_requeue.1 hm' with hm' | rfl
      · exact .inl (State.mem_setQueue hq hm')
      · exact .inl hmq
  | tick δ | expire id =>
    cases hs; exact ⟨⟨h.single, h.calls, h.queued, h.jobs, h.shape, h.spaced⟩, fun k => .inl rfl⟩

theorem reach_lineage {s : State} (h : Reach workerSafe s) : s.Lineage := by
  induction h with
  | init now =>
    refine ⟨fun k => by simp [State.live, State.init], by simp [State.init], by simp [State.init],
      by simp [State.init], fun k => ?_, fun k i t t' h => ?_⟩
    · exact RetryShape.init
    · simp [State.init, sendTimes] at h
  | next hr hw hs ih => exact (lineage_step ih (reach_traced hr) (reach_released hr) hw hs).1

theorem trail_step {s s' : State} (h : Reach workerSafe s) {a : Action}
    (hw : workerSafe s a = true) (hs : s.step a = some s') (k : Nat) :
    trail k s'.log = trail k s.log ∨ RetryStep (trail k s.log) (trail k s'.log) :=
  (lineage_step (reach_lineage h) (reach_traced h) (reach_released h) hw hs).2 k

/-- While the worker's `Update`, `PublishRetry` and `Ack` succeed and no worker stops midway, a
notification gets at most five `Send`s, the `(k + 1)`-th at least `5 * 2 ^ k` seconds after the
`k`-th. -/
theorem sends_bounded_spaced {s : State} (h : Reach workerSafe s) (k : Nat) :
    (sendTimes k s.log).length ≤ 5 ∧ Spaced (sendTimes k s.log) := by
  have hl := reach_lineage h
  exact ⟨(sendTimes_length k s.log).trans_le (hl.shape k).sends_le, hl.spaced k⟩

private def deliveredOnExpiry : List Action :=
  [.create 0 ⟨"a@b.co", "email", "s", "", 1500000, none⟩ (.ok ()) (.error ""), .call 0 .ok 1,
   .call 0 .ok 0, .call 0 .ok 0, .tick 1000000, .deadLetter .wait, .deliver 0]

private def retriedOnce : List Action :=
  deliveredOnExpiry ++ [.job 0 .ok, .send 0 false, .job 0 .ok, .job 0 .ok, .tick 10000000000,
    .deadLetter .retry, .deliver 0, .job 0 .ok, .send 0 true]

set_option maxRecDepth 20000 in
theorem sends_bounded_spaced_after_retry :
    ∃ s, Reach workerSafe s ∧ sendTimes 1 s.log = [1000000, 10001000000] ∧
      (sendTimes 1 s.log).length ≤ 5 ∧ Spaced (sendTimes 1 s.log) := by
  have h : ((State.init 0).run workerSafe retriedOnce).map (fun s => sendTimes 1 s.log) =
      some [1000000, 10001000000] := by decide
  cases hrun : (State.init 0).run workerSafe retriedOnce with
  | none => simp [hrun] at h
  | some s =>
    simp only [hrun, Option.map_some', Option.some.injEq] at h
    have hR := reach_run (.init 0) hrun
    exact ⟨s, hR, h, sends_bounded_spaced hR 1⟩

/-- While the worker's own round trips succeed and no worker stops, every notification has at
most one copy on its way at any time: the API call about to publish it, a message on one of the
three queues, or a delivery in a worker's hands before its final `Ack`. In particular no two
workers ever handle the same notification at once. -/
theorem one_copy_on_its_way {s : State} (h : Reach workerSafe s) (k : Nat) :
    s.live k ≤ 1 ∧ ∀ (i i' : Nat) (j j' : Job), i ≠ i' → s.jobs[i]? = some j →
      s.jobs[i']? = some j' → j.notification.id = k → j'.notification.id = k →
      j.pc = .ack ∨ j'.pc = .ack := by
  have hs := (reach_lineage h).single k
  refine ⟨hs, fun i i' j j' hne hj hj' hk hk' => ?_⟩
  by_contra hpc
  push_neg at hpc
  have := two_le_countP (Job.live k) hj hj' (Ne.symm hne) (by simp [Job.live, hk, hpc.1])
    (by simp [Job.live, hk', hpc.2])
  simp only [State.live] at hs
  omega

set_option maxRecDepth 20000 in
theorem one_copy_on_its_way_after_delivery :
    ∃ s, Reach workerSafe s ∧ s.jobs.length = 1 ∧ s.live 1 ≤ 1 ∧
      ∀ (i i' : Nat) (j j' : Job), i ≠ i' → s.jobs[i]? = some j → s.jobs[i']? = some j' →
        j.notification.id = 1 → j'.notification.id = 1 → j.pc = .ack ∨ j'.pc = .ack := by
  have h : ((State.init 0).run workerSafe deliveredOnExpiry).map (·.jobs.length) = some 1 := by
    decide
  cases hrun : (State.init 0).run workerSafe deliveredOnExpiry with
  | none => simp [hrun] at h
  | some s =>
    simp only [hrun, Option.map_some', Option.some.injEq] at h
    have hR := reach_run (.init 0) hrun
    exact ⟨s, hR, h, one_copy_on_its_way hR 1⟩

/-- Every successful `Send` is followed by a failed `Update`, whose `Nack` puts the message back:
the notification is sent six times at the same instant. -/
private def updateAlwaysFails : List Action :=
  deliveredOnExpiry ++ (List.replicate 5 [.job 0 .ok, .send 0 true, .job 0 .fail, .job 0 .ok,
    .deliver 0]).flatten ++ [.job 0 .ok, .send 0 true]

set_option maxRecDepth 20000 in
theorem sends_unbounded :
    ∃ s, Reach anyRun s ∧ sendTimes 1 s.log = List.replicate 6 1000000 ∧
      ¬ Spaced (sendTimes 1 s.log) := by
  have h : ((State.init 0).run anyRun updateAlwaysFails).map (fun s => sendTimes 1 s.log) =
      some (List.replicate 6 1000000) := by decide
  cases hrun : (State.init 0).run anyRun updateAlwaysFails with
  | none => simp [hrun] at h
  | some s =>
    simp only [hrun, Option.map_some', Option.some.injEq] at h
    refine ⟨s, reach_run (.init 0) hrun, h, fun hs => ?_⟩
    have := hs 0 1000000 1000000 (by simp [h]) (by simp [h])
    simp [second] at this

end DelayedNotifier
