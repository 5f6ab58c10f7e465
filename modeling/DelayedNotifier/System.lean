import DelayedNotifier.CachedRepository
import DelayedNotifier.Broker

/-!
# The running system

API callers create, read and cancel notifications through `NotificationService`, workers
run `Consumer.handleMessage` on deliveries from `notifications.queue.process`, and the broker
dead-letters due messages out of the two delay queues. Every call in progress is a thread
whose state names the round trip it makes next (to the cache, the table, the broker or the
transport), and `State.step` makes one round trip of one thread under the outcome the
environment picks, so that the runs of `Reach` are all interleavings of all threads with all
failures. The log is what the theorems read about the past: the transport `Send`s, the
publishes and the refusals of the broker, the records a `GetByID` returned, the deliveries
skipped at revalidation and acked unchecked, the cancels that returned nil and the rows
committed. A message whose `Expiration` exceeds `maxExpiration` is refused by RabbitMQ after
`Publish` has returned nil, and the API's channel is closed from then on (`channelClosed`).
`mail.ParseAddress` and `strconv.ParseInt` are not modelled: what they return is part of the
`create` action.
-/

namespace DelayedNotifier

/-- Where `Consumer.handleMessage` is in handling a delivery. -/
inductive WorkerPc
  | revalidate (c : RepoCall)
  | send
  | update (c : RepoCall)
  | publishRetry
  | ack
  /-- The `Ack` of the skipping branch after the revalidating `GetByID` failed. -/
  | ackUnchecked
  | nack
  deriving DecidableEq, Repr

structure Job where
  msg : Msg
  notification : Notification
  pc : WorkerPc
  deriving DecidableEq, Repr

/-- An API call in progress: `CreateNotification` in `Save` or at `Publish`,
`GetNotificationByID`, or `CancelNotification` of `id` in `GetByID` or in `Delete`. -/
inductive Call
  | create (c : RepoCall)
  | publish (n : Notification)
  | get (c : RepoCall)
  | cancelLookup (id : Nat) (c : RepoCall)
  | cancelDelete (id : Nat) (c : RepoCall)
  deriving DecidableEq, Repr

inductive Event
  /-- `Notifier.Send(n)` was invoked at `instant` and returned nil (`ok`) or an error. -/
  | send (n : Notification) (instant : Int) (ok : Bool)
  /-- `CreateNotification`'s `Publish(n)` returned nil and RabbitMQ accepted the message. -/
  | publish (n : Notification)
  /-- `PublishRetry(n, retryDelay)` returned nil. -/
  | publishRetry (n : Notification) (retryDelay : Int)
  /-- A `GetByID` returned `n`. -/
  | found (n : Notification)
  /-- The worker acknowledged a delivery of `id` without sending: the revalidation found
  `status`, or failed (`none`, logged as "unknown"). -/
  | skip (id : Nat) (status : Option Status)
  /-- `CancelNotification(id)` returned nil. -/
  | cancel (id : Nat)
  /-- A statement committed `r` to the table. -/
  | write (r : Row)
  /-- The `Ack` of a delivery of `id` whose revalidation failed returned nil. -/
  | ackedUnchecked (id : Nat)
  /-- RabbitMQ refused `m` and closed the API's channel. -/
  | refuse (m : Msg)
  deriving DecidableEq, Repr

structure State where
  now : Int
  db : Db
  wait : List Msg
  retry : List Msg
  process : List Msg
  jobs : List Job
  calls : List Call
  log : List Event

def State.init (now : Int) : State :=
  ⟨now, ⟨fun _ => none, fun _ => none⟩, [], [], [], [], [], []⟩

structure CreateRequest where
  recipient : String
  channel : String
  subject : String
  message : String
  scheduledAt : Int
  authorID : Option String
  deriving DecidableEq, Repr

/-- The validation half of `NotificationService.CreateNotification`: the notification it
builds, or the error it returns. `address` and `chatID` are what `mail.ParseAddress` and
`strconv.ParseInt(recipient, 10, 64)` return on the recipient. -/
def validate (uuid : Nat) (now : Int) (req : CreateRequest) (address : Except String Unit)
    (chatID : Except String Int) : Except String Notification :=
  if req.channel = "email" then
    match address with
    | .error e => .error ("invalid email format: " ++ e)
    | .ok () => .ok (newEmailNotification uuid now req.recipient req.subject req.message
        req.scheduledAt req.authorID)
  else if req.channel = "telegram" then
    match chatID with
    | .error e => .error ("invalid telegram chat id: " ++ e)
    | .ok id => .ok (newTelegramNotification uuid now id req.subject req.message
        req.scheduledAt req.authorID)
  else .error ("unknown channel: " ++ req.channel)

inductive Action
  /-- A client posts `req`; `uuid` is `uuid.New()`, and `address`, `chatID` what the two
  parsers return on its recipient. -/
  | create (uuid : Nat) (req : CreateRequest) (address : Except String Unit)
      (chatID : Except String Int)
  | get (id : Nat)
  | cancel (id : Nat)
  /-- The `i`-th API call makes its next round trip; `fresh` is what `gen_random_uuid()`
  gives an insert. -/
  | call (i : Nat) (o : Outcome) (fresh : Nat)
  /-- RabbitMQ delivers the `i`-th message of `notifications.queue.process` to a worker. -/
  | deliver (i : Nat)
  /-- The `i`-th delivery makes its next round trip other than `Send`. -/
  | job (i : Nat) (o : Outcome)
  /-- The transport returns for the `i`-th delivery. -/
  | send (i : Nat) (ok : Bool)
  /-- The worker holding the `i`-th delivery stops; the broker requeues the message. -/
  | crashJob (i : Nat)
  | crashCall (i : Nat)
  | deadLetter (q : DelayQueue)
  | tick (δ : Nat)
  /-- A cache entry's 24 h TTL lapses. -/
  | expire (id : Nat)

namespace State

def record (s : State) (e : Event) : State := { s with log := s.log ++ [e] }

def setJob (s : State) (i : Nat) (j : Job) : State := { s with jobs := s.jobs.set i j }

def dropJob (s : State) (i : Nat) : State := { s with jobs := s.jobs.eraseIdx i }

def setCall (s : State) (i : Nat) (c : Call) : State := { s with calls := s.calls.set i c }

def dropCall (s : State) (i : Nat) : State := { s with calls := s.calls.eraseIdx i }

def requeue (s : State) (m : Msg) : State := { s with process := s.process ++ [m] }

def queue (s : State) : DelayQueue → List Msg
  | .wait => s.wait
  | .retry => s.retry

def setQueue (s : State) (q : DelayQueue) (l : List Msg) : State :=
  match q with
  | .wait => { s with wait := l }
  | .retry => { s with retry := l }

def enqueue (s : State) (o : Outcome) (q : DelayQueue) (m : Msg) : State :=
  if o.applied && m.accepted then s.setQueue q (s.queue q ++ [m]) else s

/-- `Publish` of `m` on the API's channel: a refusal is logged, since it closes the channel. -/
def publishWait (s : State) (o : Outcome) (m : Msg) : State :=
  if o.applied && !m.accepted then (s.enqueue o .wait m).record (.refuse m) else s.enqueue o .wait m

def channelClosed (s : State) : Bool :=
  s.log.any fun e => match e with
    | .refuse _ => true
    | _ => false

def committedRows (s : State) : List Row :=
  s.log.filterMap fun e => match e with
    | .write r => some r
    | _ => none

section Fields

variable (s : State) (i : Nat) (e : Event) (j : Job) (c : Call) (m : Msg)

@[simp] theorem record_db : (s.record e).db = s.db := rfl
@[simp] theorem record_now : (s.record e).now = s.now := rfl
@[simp] theorem record_queues : (s.record e).wait = s.wait ∧ (s.record e).retry = s.retry ∧
    (s.record e).process = s.process := ⟨rfl, rfl, rfl⟩
@[simp] theorem record_jobs : (s.record e).jobs = s.jobs := rfl
@[simp] theorem record_calls : (s.record e).calls = s.calls := rfl
@[simp] theorem record_log : (s.record e).log = s.log ++ [e] := rfl

@[simp] theorem setJob_db : (s.setJob i j).db = s.db := rfl
@[simp] theorem setJob_now : (s.setJob i j).now = s.now := rfl
@[simp] theorem setJob_queues : (s.setJob i j).wait = s.wait ∧ (s.setJob i j).retry = s.retry ∧
    (s.setJob i j).process = s.process := ⟨rfl, rfl, rfl⟩
@[simp] theorem setJob_jobs : (s.setJob i j).jobs = s.jobs.set i j := rfl
@[simp] theorem setJob_calls : (s.setJob i j).calls = s.calls := rfl
@[simp] theorem setJob_log : (s.setJob i j).log = s.log := rfl

@[simp] theorem dropJob_db : (s.dropJob i).db = s.db := rfl
@[simp] theorem dropJob_now : (s.dropJob i).now = s.now := rfl
@[simp] theorem dropJob_queues : (s.dropJob i).wait = s.wait ∧ (s.dropJob i).retry = s.retry ∧
    (s.dropJob i).process = s.process := ⟨rfl, rfl, rfl⟩
@[simp] theorem dropJob_jobs : (s.dropJob i).jobs = s.jobs.eraseIdx i := rfl
@[simp] theorem dropJob_calls : (s.dropJob i).calls = s.calls := rfl
@[simp] theorem dropJob_log : (s.dropJob i).log = s.log := rfl

@[simp] theorem setCall_db : (s.setCall i c).db = s.db := rfl
@[simp] theorem setCall_now : (s.setCall i c).now = s.now := rfl
@[simp] theorem setCall_queues : (s.setCall i c).wait = s.wait ∧
    (s.setCall i c).retry = s.retry ∧ (s.setCall i c).process = s.process := ⟨rfl, rfl, rfl⟩
@[simp] theorem setCall_jobs : (s.setCall i c).jobs = s.jobs := rfl
@[simp] theorem setCall_calls : (s.setCall i c).calls = s.calls.set i c := rfl
@[simp] theorem setCall_log : (s.setCall i c).log = s.log := rfl

@[simp] theorem dropCall_db : (s.dropCall i).db = s.db := rfl
@[simp] theorem dropCall_now : (s.dropCall i).now = s.now := rfl
@[simp] theorem dropCall_queues : (s.dropCall i).wait = s.wait ∧ (s.dropCall i).retry = s.retry ∧
    (s.dropCall i).process = s.process := ⟨rfl, rfl, rfl⟩
@[simp] theorem dropCall_jobs : (s.dropCall i).jobs = s.jobs := rfl
@[simp] theorem dropCall_calls : (s.dropCall i).calls = s.calls.eraseIdx i := rfl
@[simp] theorem dropCall_log : (s.dropCall i).log = s.log := rfl

@[simp] theorem requeue_db : (s.requeue m).db = s.db := rfl
@[simp] theorem requeue_now : (s.requeue m).now = s.now := rfl
@[simp] theorem requeue_queues : (s.requeue m).wait = s.wait ∧ (s.requeue m).retry = s.retry ∧
    (s.requeue m).process = s.process ++ [m] := ⟨rfl, rfl, rfl⟩
@[simp] theorem requeue_jobs : (s.requeue m).jobs = s.jobs := rfl
@[simp] theorem requeue_calls : (s.requeue m).calls = s.calls := rfl
@[simp] theorem requeue_log : (s.requeue m).log = s.log := rfl

variable (o : Outcome) (q : DelayQueue)

@[simp] theorem enqueue_db : (s.enqueue o q m).db = s.db := by
  unfold enqueue setQueue; split <;> (try split) <;> rfl
@[simp] theorem enqueue_now : (s.enqueue o q m).now = s.now := by
  unfold enqueue setQueue; split <;> (try split) <;> rfl
@[simp] theorem enqueue_process : (s.enqueue o q m).process = s.process := by
  unfold enqueue setQueue; split <;> (try split) <;> rfl
@[simp] theorem enqueue_jobs : (s.enqueue o q m).jobs = s.jobs := by
  unfold enqueue setQueue; split <;> (try split) <;> rfl
@[simp] theorem enqueue_calls : (s.enqueue o q m).calls = s.calls := by
  unfold enqueue setQueue; split <;> (try split) <;> rfl
@[simp] theorem enqueue_log : (s.enqueue o q m).log = s.log := by
  unfold enqueue setQueue; split <;> (try split) <;> rfl

theorem publishWait_eq : s.publishWait o m = s.enqueue o .wait m ∨
    o.applied ∧ m.accepted = false ∧ s.publishWait o m = s.record (.refuse m) := by
  unfold publishWait
  split_ifs with h
  · simp only [Bool.and_eq_true, Bool.not_eq_true'] at h
    refine .inr ⟨h.1, h.2, ?_⟩
    simp [enqueue, h.2]
  · exact .inl rfl

@[simp] theorem publishWait_db : (s.publishWait o m).db = s.db := by
  rcases publishWait_eq s m o with h | ⟨-, -, h⟩ <;> rw [h] <;> simp
@[simp] theorem publishWait_now : (s.publishWait o m).now = s.now := by
  rcases publishWait_eq s m o with h | ⟨-, -, h⟩ <;> rw [h] <;> simp
@[simp] theorem publishWait_retry : (s.publishWait o m).retry = s.retry := by
  unfold publishWait enqueue setQueue; split_ifs <;> rfl
@[simp] theorem publishWait_process : (s.publishWait o m).process = s.process := by
  rcases publishWait_eq s m o with h | ⟨-, -, h⟩ <;> rw [h] <;> simp
@[simp] theorem publishWait_jobs : (s.publishWait o m).jobs = s.jobs := by
  rcases publishWait_eq s m o with h | ⟨-, -, h⟩ <;> rw [h] <;> simp
@[simp] theorem publishWait_calls : (s.publishWait o m).calls = s.calls := by
  rcases publishWait_eq s m o with h | ⟨-, -, h⟩ <;> rw [h] <;> simp

end Fields

def repoStep (s : State) (o : Outcome) (fresh : Nat) (c : RepoCall) :
    State × (RepoCall ⊕ RepoReply) :=
  let p := c.step o fresh s.now s.db
  let s' := { s with db := p.1 }
  (match c.written o fresh s.now s.db with
    | some r => s'.record (.write r)
    | none => s', p.2)

theorem repoStep_fst (s : State) (o : Outcome) (fresh : Nat) (c : RepoCall) :
    (s.repoStep o fresh c).1 =
      { s with db := (c.step o fresh s.now s.db).1,
               log := s.log ++ (c.written o fresh s.now s.db).toList.map .write } := by
  unfold repoStep; split <;> simp_all [record]

@[simp] theorem repoStep_snd (s : State) (o : Outcome) (fresh : Nat) (c : RepoCall) :
    (s.repoStep o fresh c).2 = (c.step o fresh s.now s.db).2 := by
  unfold repoStep; split <;> rfl

theorem repoStep_eq {s s₁ : State} {o : Outcome} {fresh : Nat} {c : RepoCall}
    {r : RepoCall ⊕ RepoReply} (hp : s.repoStep o fresh c = (s₁, r)) :
    s₁ = { s with db := (c.step o fresh s.now s.db).1,
                  log := s.log ++ (c.written o fresh s.now s.db).toList.map .write } ∧
      (c.step o fresh s.now s.db).2 = r :=
  ⟨by rw [← repoStep_fst, hp], by rw [← repoStep_snd, hp]⟩

section Queues

variable {s : State} {m x : Msg}

theorem mem_requeue :
    x ∈ (s.requeue m).wait ++ (s.requeue m).retry ++ (s.requeue m).process ↔
      x ∈ s.wait ++ s.retry ++ s.process ∨ x = m := by
  simp [or_assoc]

theorem mem_enqueue {o : Outcome} {q : DelayQueue}
    (hx : x ∈ (s.enqueue o q m).wait ++ (s.enqueue o q m).retry ++ (s.enqueue o q m).process) :
    x ∈ s.wait ++ s.retry ++ s.process ∨ x = m := by
  unfold enqueue at hx
  split at hx
  · cases q <;> simp only [setQueue, queue, List.mem_append, List.mem_singleton] at hx ⊢ <;> tauto
  · exact .inl hx

theorem mem_enqueue_self (q : DelayQueue) (h : m.accepted) : m ∈ (s.enqueue .ok q m).queue q := by
  cases q <;> simp [enqueue, Outcome.applied, setQueue, queue, h]

theorem enqueue_record {o : Outcome} {q : DelayQueue} (e : Event) :
    (s.enqueue o q m).record e = (s.record e).enqueue o q m := by
  unfold enqueue; split <;> cases q <;> rfl

theorem publishWait_of_accepted {o : Outcome} (h : m.accepted) :
    s.publishWait o m = s.enqueue o .wait m := by
  simp [publishWait, h]

theorem publishWait_of_refused {o : Outcome} (ho : o.applied) (h : m.accepted = false) :
    s.publishWait o m = s.record (.refuse m) := by
  simp [publishWait, enqueue, ho, h]

theorem mem_publishWait_log {o : Outcome} {e : Event} (h : e ∈ (s.publishWait o m).log) :
    e ∈ s.log ∨ e = .refuse m := by
  rcases publishWait_eq s m o with he | ⟨-, -, he⟩ <;> rw [he] at h <;> simp at h
  · exact .inl h
  · exact h

theorem mem_setQueue {q : DelayQueue} {rest : List Msg} (hq : s.queue q = m :: rest)
    (hx : x ∈ (s.setQueue q rest).wait ++ (s.setQueue q rest).retry ++ (s.setQueue q rest).process) :
    x ∈ s.wait ++ s.retry ++ s.process := by
  cases q <;> simp only [queue] at hq <;>
    simp only [setQueue, hq, List.mem_append, List.mem_cons] at hx ⊢ <;> tauto

end Queues

/-- One round trip of `Consumer.handleMessage` for the `i`-th delivery `j`, other than the
transport's `Send`. -/
def advanceJob (s : State) (i : Nat) (o : Outcome) (j : Job) : Option State :=
  match j.pc with
  | .revalidate c =>
    let (s, r) := s.repoStep o 0 c
    match r with
    | .inl c' => some (s.setJob i { j with pc := .revalidate c' })
    | .inr (.record latest) =>
      if latest.status = .scheduled then
        some ((s.record (.found latest)).setJob i { j with pc := .send })
      else
        some (((s.record (.found latest)).record (.skip j.notification.id (some latest.status))).setJob
          i { j with pc := .ack })
    | .inr _ => some ((s.record (.skip j.notification.id none)).setJob i { j with pc := .ackUnchecked })
  | .send => none
  | .update c =>
    let (s, r) := s.repoStep o 0 c
    match r with
    | .inl c' => some (s.setJob i { j with pc := .update c' })
    | .inr (.error _) => some (s.setJob i { j with pc := .nack })
    | .inr _ => some (s.setJob i { j with pc := .ack })
  | .publishRetry =>
    let retryDelay := calculateExponentialBackoff j.notification.attempts
    let s := s.enqueue o .retry (publishRetryMsg s.now j.notification retryDelay)
    match o with
    | .ok => some ((s.record (.publishRetry j.notification retryDelay)).setJob i { j with pc := .ack })
    | _ => some (s.setJob i { j with pc := .nack })
  | .ack =>
    match o with
    | .ok => some (s.dropJob i)
    | _ => some ((s.dropJob i).requeue j.msg)
  | .ackUnchecked =>
    match o with
    | .ok => some ((s.record (.ackedUnchecked j.notification.id)).dropJob i)
    | _ => some ((s.dropJob i).requeue j.msg)
  | .nack => some ((s.dropJob i).requeue j.msg)

/-- The transport returns for the `i`-th delivery `j`: on success the handler marks the
notification sent, on an error `handleSendError` counts the attempt and either fails the
notification or schedules a retry. -/
def sendJob (s : State) (i : Nat) (ok : Bool) (j : Job) : Option State :=
  match j.pc with
  | .send =>
    let n := j.notification
    let s := s.record (.send n s.now ok)
    if ok then
      let n' := { n with status := .sent, sentAt := some s.now }
      some (s.setJob i { j with notification := n', pc := .update (.update n') })
    else
      let n' := { n with attempts := n.attempts + 1 }
      if maxRetries ≤ n'.attempts then
        let n'' := { n' with status := .failed }
        some (s.setJob i { j with notification := n'', pc := .update (.update n'') })
      else some (s.setJob i { j with notification := n', pc := .publishRetry })
  | _ => none

/-- One round trip of the `i`-th API call `c`. -/
def advanceCall (s : State) (i : Nat) (o : Outcome) (fresh : Nat) : Call → State
  | .create c =>
    let (s, r) := s.repoStep o fresh c
    match r with
    | .inl c' => s.setCall i (.create c')
    | .inr (.record created) => s.setCall i (.publish created)
    | .inr _ => s.dropCall i
  | .publish n =>
    let m := publishMsg s.now n
    if s.channelClosed then s.dropCall i
    else if o = .ok && m.accepted then ((s.publishWait o m).record (.publish n)).dropCall i
    else (s.publishWait o m).dropCall i
  | .get c =>
    let (s, r) := s.repoStep o fresh c
    match r with
    | .inl c' => s.setCall i (.get c')
    | .inr (.record n) => (s.record (.found n)).dropCall i
    | .inr _ => s.dropCall i
  | .cancelLookup id c =>
    let (s, r) := s.repoStep o fresh c
    match r with
    | .inl c' => s.setCall i (.cancelLookup id c')
    | .inr (.record n) =>
      if n.status = .scheduled then (s.record (.found n)).setCall i (.cancelDelete id (.delete id))
      else (s.record (.found n)).dropCall i
    | .inr _ => s.dropCall i
  | .cancelDelete id c =>
    let (s, r) := s.repoStep o fresh c
    match r with
    | .inl c' => s.setCall i (.cancelDelete id c')
    | .inr .done => (s.record (.cancel id)).dropCall i
    | .inr _ => s.dropCall i

def step (s : State) : Action → Option State
  | .create uuid req address chatID =>
    match validate uuid s.now req address chatID with
    | .ok n => some { s with calls := s.calls ++ [.create (.save n)] }
    | .error _ => some s
  | .get id => some { s with calls := s.calls ++ [.get (.getByID id)] }
  | .cancel id => some { s with calls := s.calls ++ [.cancelLookup id (.getByID id)] }
  | .call i o fresh => s.calls[i]?.map (s.advanceCall i o fresh)
  | .deliver i =>
    s.process[i]?.map fun m =>
      { s with process := s.process.eraseIdx i,
               jobs := s.jobs ++ [⟨m, m.body, .revalidate (.getByID m.body.id)⟩] }
  | .job i o => s.jobs[i]?.bind (s.advanceJob i o)
  | .send i ok => s.jobs[i]?.bind (s.sendJob i ok)
  | .crashJob i => s.jobs[i]?.map fun j => (s.dropJob i).requeue j.msg
  | .crashCall i => s.calls[i]?.map fun _ => s.dropCall i
  | .deadLetter q =>
    (deadLetter s.now (s.queue q)).map fun (m, rest) => (s.setQueue q rest).requeue m
  | .tick δ => some { s with now := s.now + δ }
  | .expire id => some { s with db := s.db.cacheDelete .ok id }

def run (P : State → Action → Bool) (s : State) : List Action → Option State
  | [] => some s
  | a :: as => if P s a then (s.step a).bind (·.run P as) else none

end State

/-- The states reachable from an empty system by actions that `P` allows. -/
inductive Reach (P : State → Action → Bool) : State → Prop
  | init (now : Int) : Reach P (State.init now)
  | next {s s' : State} {a : Action} : Reach P s → P s a → s.step a = some s' → Reach P s'

theorem reach_run {P : State → Action → Bool} {s s' : State} {as : List Action}
    (hs : Reach P s) (h : s.run P as = some s') : Reach P s' := by
  induction as generalizing s with
  | nil => cases h; exact hs
  | cons a as ih =>
    simp only [State.run] at h
    split_ifs at h with hp
    cases hn : s.step a with
    | none => simp [hn] at h
    | some t => simp only [hn, Option.bind_some] at h; exact ih (hs.next hp hn) h

theorem State.run_append (P : State → Action → Bool) (s : State) (as bs : List Action) :
    s.run P (as ++ bs) = (s.run P as).bind (·.run P bs) := by
  induction as generalizing s with
  | nil => rfl
  | cons a as ih =>
    simp only [List.cons_append, State.run]
    split_ifs
    · cases s.step a <;> simp [ih]
    · rfl

theorem State.run_mono {P Q : State → Action → Bool} (hPQ : ∀ s a, P s a = true → Q s a = true)
    {s s' : State} {as : List Action} (h : s.run P as = some s') : s.run Q as = some s' := by
  induction as generalizing s with
  | nil => exact h
  | cons a as ih =>
    simp only [State.run] at h ⊢
    split_ifs at h with hp
    rw [if_pos (hPQ s a hp)]
    cases hn : s.step a with
    | none => simp [hn] at h
    | some t => simp only [hn, Option.bind_some] at h ⊢; exact ih h

section Inversion

/-! What one step of a thread can do, one lemma per place the thread can be. -/

variable {s s' s₁ : State} {i : Nat} {o : Outcome} {fresh : Nat} {j : Job} {c : RepoCall}
  {r : RepoCall ⊕ RepoReply}

namespace State

theorem advanceJob_revalidate (hpc : j.pc = .revalidate c) (hp : s.repoStep o 0 c = (s₁, r))
    (h : s.advanceJob i o j = some s') :
    (∃ c', r = .inl c' ∧ s' = s₁.setJob i { j with pc := .revalidate c' }) ∨
    (∃ n, r = .inr (.record n) ∧ n.status = .scheduled ∧
      s' = (s₁.record (.found n)).setJob i { j with pc := .send }) ∨
    (∃ n, r = .inr (.record n) ∧ n.status ≠ .scheduled ∧
      s' = ((s₁.record (.found n)).record (.skip j.notification.id (some n.status))).setJob i
        { j with pc := .ack }) ∨
    ((∀ x, r ≠ .inl x) ∧ (∀ n, r ≠ .inr (.record n)) ∧
      s' = (s₁.record (.skip j.notification.id none)).setJob i { j with pc := .ackUnchecked }) := by
  simp only [advanceJob, hpc, hp] at h
  rcases r with c' | ⟨n⟩ | _ | e <;> dsimp only at h
  · cases h; exact .inl ⟨c', rfl, rfl⟩
  · split_ifs at h with hn <;> cases h
    · exact .inr (.inl ⟨n, rfl, hn, rfl⟩)
    · exact .inr (.inr (.inl ⟨n, rfl, hn, rfl⟩))
  all_goals cases h; exact .inr (.inr (.inr ⟨by simp, by simp, rfl⟩))

theorem advanceJob_update (hpc : j.pc = .update c) (hp : s.repoStep o 0 c = (s₁, r))
    (h : s.advanceJob i o j = some s') :
    (∃ c', r = .inl c' ∧ s' = s₁.setJob i { j with pc := .update c' }) ∨
    (∃ e, r = .inr (.error e) ∧ s' = s₁.setJob i { j with pc := .nack }) ∨
    ((∀ x, r ≠ .inl x) ∧ (∀ e, r ≠ .inr (.error e)) ∧ s' = s₁.setJob i { j with pc := .ack }) := by
  simp only [advanceJob, hpc, hp] at h
  rcases r with c' | ⟨n⟩ | _ | e <;> dsimp only at h <;> cases h
  · exact .inl ⟨c', rfl, rfl⟩
  · exact .inr (.inr ⟨by simp, by simp, rfl⟩)
  · exact .inr (.inr ⟨by simp, by simp, rfl⟩)
  · exact .inr (.inl ⟨e, rfl, rfl⟩)

theorem advanceJob_publishRetry (hpc : j.pc = .publishRetry) (h : s.advanceJob i o j = some s') :
    let retryDelay := calculateExponentialBackoff j.notification.attempts
    let s₁ := s.enqueue o .retry (publishRetryMsg s.now j.notification retryDelay)
    (o = .ok ∧ s' = (s₁.record (.publishRetry j.notification retryDelay)).setJob i
      { j with pc := .ack }) ∨
    (o ≠ .ok ∧ s' = s₁.setJob i { j with pc := .nack }) := by
  simp only [advanceJob, hpc] at h
  cases o <;> cases h
  · exact .inl ⟨rfl, rfl⟩
  all_goals exact .inr ⟨by simp, rfl⟩

theorem advanceJob_ack (hpc : j.pc = .ack) (h : s.advanceJob i o j = some s') :
    (o = .ok ∧ s' = s.dropJob i) ∨ (o ≠ .ok ∧ s' = (s.dropJob i).requeue j.msg) := by
  simp only [advanceJob, hpc] at h
  cases o <;> cases h
  · exact .inl ⟨rfl, rfl⟩
  all_goals exact .inr ⟨by simp, rfl⟩

theorem advanceJob_ackUnchecked (hpc : j.pc = .ackUnchecked) (h : s.advanceJob i o j = some s') :
    (o = .ok ∧ s' = (s.record (.ackedUnchecked j.notification.id)).dropJob i) ∨
      (o ≠ .ok ∧ s' = (s.dropJob i).requeue j.msg) := by
  simp only [advanceJob, hpc] at h
  cases o <;> cases h
  · exact .inl ⟨rfl, rfl⟩
  all_goals exact .inr ⟨by simp, rfl⟩

theorem advanceJob_nack (hpc : j.pc = .nack) (h : s.advanceJob i o j = some s') :
    s' = (s.dropJob i).requeue j.msg := by
  simp only [advanceJob, hpc] at h
  cases h; rfl

theorem advanceJob_pc (h : s.advanceJob i o j = some s') : j.pc ≠ .send := by
  rintro hpc
  simp [advanceJob, hpc] at h

theorem sendJob_cases {ok : Bool} (h : s.sendJob i ok j = some s') :
    let n := j.notification
    let s₁ := s.record (.send n s.now ok)
    j.pc = .send ∧
    ((ok = true ∧ s' = s₁.setJob i
        { j with notification := { n with status := .sent, sentAt := some s.now },
                 pc := .update (.update { n with status := .sent, sentAt := some s.now }) }) ∨
     (ok = false ∧ maxRetries ≤ n.attempts + 1 ∧ s' = s₁.setJob i
        { j with notification := { n with status := .failed, attempts := n.attempts + 1 },
                 pc := .update (.update { n with status := .failed, attempts := n.attempts + 1 }) }) ∨
     (ok = false ∧ n.attempts + 1 < maxRetries ∧ s' = s₁.setJob i
        { j with notification := { n with attempts := n.attempts + 1 }, pc := .publishRetry })) := by
  unfold sendJob at h
  split at h
  · rename_i hpc
    refine ⟨hpc, ?_⟩
    dsimp only at h
    split at h
    · cases h; exact .inl ⟨by assumption, rfl⟩
    · split at h <;> cases h
      · exact .inr (.inl ⟨by simpa using ‹¬ok = true›, ‹_›, rfl⟩)
      · exact .inr (.inr ⟨by simpa using ‹¬ok = true›, by push_neg at *; assumption, rfl⟩)
  · cases h

theorem advanceCall_create (hp : s.repoStep o fresh c = (s₁, r)) :
    (∃ c', r = .inl c' ∧ s.advanceCall i o fresh (.create c) = s₁.setCall i (.create c')) ∨
    (∃ n, r = .inr (.record n) ∧ s.advanceCall i o fresh (.create c) = s₁.setCall i (.publish n)) ∨
    ((∀ x, r ≠ .inl x) ∧ (∀ n, r ≠ .inr (.record n)) ∧
      s.advanceCall i o fresh (.create c) = s₁.dropCall i) := by
  simp only [advanceCall, hp]
  rcases r with c' | ⟨n⟩ | _ | e
  · exact .inl ⟨c', rfl, rfl⟩
  · exact .inr (.inl ⟨n, rfl, rfl⟩)
  all_goals exact .inr (.inr ⟨by simp, by simp, rfl⟩)

theorem advanceCall_publish (n : Notification) :
    s.advanceCall i o fresh (.publish n) =
      if s.channelClosed then s.dropCall i
      else if o = .ok ∧ (publishMsg s.now n).accepted then
        ((s.publishWait o (publishMsg s.now n)).record (.publish n)).dropCall i
      else (s.publishWait o (publishMsg s.now n)).dropCall i := by
  simp only [advanceCall, Bool.and_eq_true, decide_eq_true_eq]

theorem advanceCall_get (hp : s.repoStep o fresh c = (s₁, r)) :
    (∃ c', r = .inl c' ∧ s.advanceCall i o fresh (.get c) = s₁.setCall i (.get c')) ∨
    (∃ n, r = .inr (.record n) ∧
      s.advanceCall i o fresh (.get c) = (s₁.record (.found n)).dropCall i) ∨
    ((∀ x, r ≠ .inl x) ∧ (∀ n, r ≠ .inr (.record n)) ∧
      s.advanceCall i o fresh (.get c) = s₁.dropCall i) := by
  simp only [advanceCall, hp]
  rcases r with c' | ⟨n⟩ | _ | e
  · exact .inl ⟨c', rfl, rfl⟩
  · exact .inr (.inl ⟨n, rfl, rfl⟩)
  all_goals exact .inr (.inr ⟨by simp, by simp, rfl⟩)

theorem advanceCall_cancelLookup {id : Nat} (hp : s.repoStep o fresh c = (s₁, r)) :
    (∃ c', r = .inl c' ∧
      s.advanceCall i o fresh (.cancelLookup id c) = s₁.setCall i (.cancelLookup id c')) ∨
    (∃ n, r = .inr (.record n) ∧ n.status = .scheduled ∧ s.advanceCall i o fresh (.cancelLookup id c) =
      (s₁.record (.found n)).setCall i (.cancelDelete id (.delete id))) ∨
    (∃ n, r = .inr (.record n) ∧ n.status ≠ .scheduled ∧
      s.advanceCall i o fresh (.cancelLookup id c) = (s₁.record (.found n)).dropCall i) ∨
    ((∀ x, r ≠ .inl x) ∧ (∀ n, r ≠ .inr (.record n)) ∧
      s.advanceCall i o fresh (.cancelLookup id c) = s₁.dropCall i) := by
  simp only [advanceCall, hp]
  rcases r with c' | ⟨n⟩ | _ | e
  · exact .inl ⟨c', rfl, rfl⟩
  · dsimp only
    split_ifs with hn
    · exact .inr (.inl ⟨n, rfl, hn, rfl⟩)
    · exact .inr (.inr (.inl ⟨n, rfl, hn, rfl⟩))
  all_goals exact .inr (.inr (.inr ⟨by simp, by simp, rfl⟩))

theorem advanceCall_cancelDelete {id : Nat} (hp : s.repoStep o fresh c = (s₁, r)) :
    (∃ c', r = .inl c' ∧
      s.advanceCall i o fresh (.cancelDelete id c) = s₁.setCall i (.cancelDelete id c')) ∨
    (r = .inr .done ∧ s.advanceCall i o fresh (.cancelDelete id c) = (s₁.record (.cancel id)).dropCall i) ∨
    ((∀ x, r ≠ .inl x) ∧ r ≠ .inr .done ∧
      s.advanceCall i o fresh (.cancelDelete id c) = s₁.dropCall i) := by
  simp only [advanceCall, hp]
  rcases r with c' | ⟨n⟩ | _ | e
  · exact .inl ⟨c', rfl, rfl⟩
  · exact .inr (.inr ⟨by simp, by simp, rfl⟩)
  · exact .inr (.inl ⟨rfl, rfl⟩)
  · exact .inr (.inr ⟨by simp, by simp, rfl⟩)

end State

end Inversion

def anyRun (_ : State) (_ : Action) : Bool := true

/-- Every cache, table and broker round trip succeeds and nothing crashes; the transport
may still fail. -/
def reliable (_ : State) : Action → Bool
  | .call _ o _ | .job _ o => o == .ok
  | .crashJob _ | .crashCall _ => false
  | _ => true

end DelayedNotifier
