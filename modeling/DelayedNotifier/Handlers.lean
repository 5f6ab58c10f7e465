import DelayedNotifier.System

/-!
# What the API answers

`Handlers` binds the request, calls `NotificationService` and maps an error with `errors.Is`:
`ErrDuplicateRecord` is `409` on create, `ErrNotFound` is `404` on read and cancel, and any
other error is `500` with a fixed text. The service builds its own errors with `fmt.Errorf`,
which wraps no sentinel, so a create that validation rejects and a cancel of a record that is
not `scheduled` are answered `500`, with the very response a failed store round trip gets; no
bound create is ever answered `400` and no cancel `409` (`rejections_answer_500`). Both still
change nothing: a rejected create makes no call, and a cancel whose lookup reads another
status ends before its `Delete`. `State.respond` is the response each round trip that ends an
API call of the running system writes.
-/

namespace DelayedNotifier

/-- An error as `NotificationService` returns it: a repository error passed up as it came, or
one the service built with `fmt.Errorf`, which wraps no sentinel. -/
inductive ServiceError
  | repo (e : RepoError)
  | formatted (msg : String)
  deriving DecidableEq, Repr

def ServiceError.is (err : ServiceError) (target : RepoError) : Bool := err == .repo target

def Status.text : Status → String
  | .scheduled => "scheduled"
  | .sent => "sent"
  | .failed => "failed"
  | .cancelled => "cancelled"

def cannotCancel (status : Status) : ServiceError :=
  .formatted ("cannot cancel notification with status: " ++ status.text)

inductive Body
  | notification (n : Notification)
  | error (err : ServiceError)
  | text (msg : String)
  | empty
  deriving DecidableEq, Repr

structure Response where
  status : Nat
  body : Body
  deriving DecidableEq, Repr

section Service

/-- `NotificationService.CreateNotification`: validation, then `Save`, then `Publish`; `save`
and `publish` are what the repository and the queue return. -/
def NotificationService.createNotification (uuid : Nat) (now : Int) (req : CreateRequest)
    (address : Except String Unit) (chatID : Except String Int)
    (save : Notification → Except RepoError Notification)
    (publish : Notification → Except String Unit) : Except ServiceError Notification :=
  match validate uuid now req address chatID with
  | .error e => .error (.formatted e)
  | .ok n =>
    match save n with
    | .error e => .error (.repo e)
    | .ok created =>
      match publish created with
      | .error e => .error (.formatted ("failed to schedule notification: " ++ e))
      | .ok () => .ok created

def NotificationService.getNotificationByID (getByID : Nat → Except RepoError Notification)
    (id : Nat) : Except ServiceError Notification :=
  match getByID id with
  | .error e => .error (.repo e)
  | .ok n => .ok n

def NotificationService.cancelNotification (getByID : Nat → Except RepoError Notification)
    (delete : Nat → Except RepoError Unit) (id : Nat) : Except ServiceError Unit :=
  match getByID id with
  | .error e => .error (.repo e)
  | .ok n =>
    if n.status ≠ .scheduled then .error (cannotCancel n.status)
    else
      match delete id with
      | .error e => .error (.repo e)
      | .ok () => .ok ()

variable {uuid : Nat} {now : Int} {req : CreateRequest} {address : Except String Unit}
  {chatID : Except String Int} {e : String}

theorem NotificationService.createNotification_rejected
    (h : validate uuid now req address chatID = .error e)
    (save : Notification → Except RepoError Notification)
    (publish : Notification → Except String Unit) :
    NotificationService.createNotification uuid now req address chatID save publish =
      .error (.formatted e) := by
  simp [NotificationService.createNotification, h]

theorem NotificationService.cancelNotification_unscheduled
    {getByID : Nat → Except RepoError Notification} {id : Nat} {n : Notification}
    (h : getByID id = .ok n) (hn : n.status ≠ .scheduled) (delete : Nat → Except RepoError Unit) :
    NotificationService.cancelNotification getByID delete id = .error (cannotCancel n.status) := by
  simp [NotificationService.cancelNotification, h, hn]

end Service

section Handlers

/-- The error branch every handler ends in: `errors.Is(err, sentinel)` is answered `status`
with `err.Error()`, any other error `500` with `text`. -/
def errorResponse (sentinel : RepoError) (status : Nat) (text : String) (err : ServiceError) :
    Response :=
  if err.is sentinel then ⟨status, .error err⟩ else ⟨500, .text text⟩

def Handlers.createResponse : Except ServiceError Notification → Response
  | .ok n => ⟨201, .notification n⟩
  | .error err => errorResponse .duplicateRecord 409 "failed to create notification" err

def Handlers.getResponse : Except ServiceError Notification → Response
  | .ok n => ⟨200, .notification n⟩
  | .error err => errorResponse .notFound 404 "failed to retrieve notification" err

def Handlers.cancelResponse : Except ServiceError Unit → Response
  | .ok () => ⟨204, .empty⟩
  | .error err => errorResponse .notFound 404 "failed to cancel notification" err

def Handlers.createNotification (bind : Except String CreateRequest)
    (service : CreateRequest → Except ServiceError Notification) : Response :=
  match bind with
  | .error e => ⟨400, .text e⟩
  | .ok req => Handlers.createResponse (service req)

def Handlers.withID (id : Except String Nat) (handle : Nat → Response) : Response :=
  match id with
  | .error _ => ⟨400, .text "invalid notification ID format"⟩
  | .ok id => handle id

def Handlers.getNotificationByID (id : Except String Nat)
    (service : Nat → Except ServiceError Notification) : Response :=
  Handlers.withID id fun id => Handlers.getResponse (service id)

def Handlers.cancelNotification (id : Except String Nat)
    (service : Nat → Except ServiceError Unit) : Response :=
  Handlers.withID id fun id => Handlers.cancelResponse (service id)

variable {sentinel : RepoError} {status : Nat} {text : String} {err : ServiceError}

theorem errorResponse_of_ne (h : err ≠ .repo sentinel) :
    errorResponse sentinel status text err = ⟨500, .text text⟩ := by
  simp [errorResponse, ServiceError.is, h]

theorem errorResponse_status_ne {k : Nat} (h₁ : status ≠ k) (h₂ : 500 ≠ k) :
    (errorResponse sentinel status text err).status ≠ k := by
  unfold errorResponse
  split_ifs <;> assumption

theorem Handlers.createResponse_status_ne (r : Except ServiceError Notification) :
    (Handlers.createResponse r).status ≠ 400 := by
  cases r with
  | ok n => simp [Handlers.createResponse]
  | error err => exact errorResponse_status_ne (by decide) (by decide)

theorem Handlers.cancelResponse_status_ne (r : Except ServiceError Unit) :
    (Handlers.cancelResponse r).status ≠ 409 := by
  cases r with
  | ok u => simp [Handlers.cancelResponse]
  | error err => exact errorResponse_status_ne (by decide) (by decide)

end Handlers

theorem RepoCall.written_of_record {o : Outcome} {fresh : Nat} {now : Int} {d : Db}
    {c : RepoCall} {n : Notification} (h : (c.step o fresh now d).2 = .inr (.record n)) :
    c.written o fresh now d = none := by
  rcases RepoCall.step_record o c h with ⟨k, rfl, -⟩ | hf
  · rfl
  · cases c <;> first | rfl | simp [RepoCall.filling] at hf

namespace State

/-- The response written when the `o` round trip of the API call `c` ends it, `none` while the
call goes on: the branches of `advanceCall` that drop the call, through the handler. A
`Publish` fails when its round trip does or the channel is closed (`ErrClosed`); the queue's own
error, which no response shows, is left out. -/
def respond (s : State) (o : Outcome) (fresh : Nat) : Call → Option Response
  | .create c =>
    match (c.step o fresh s.now s.db).2 with
    | .inr (.error e) => some (Handlers.createResponse (.error (.repo e)))
    | _ => none
  | .publish n =>
    some (Handlers.createResponse
      (if o = .ok ∧ s.channelClosed = false then .ok n
       else .error (.formatted "failed to schedule notification: ")))
  | .get c =>
    match (c.step o fresh s.now s.db).2 with
    | .inr (.record n) => some (Handlers.getResponse (.ok n))
    | .inr (.error e) => some (Handlers.getResponse (.error (.repo e)))
    | _ => none
  | .cancelLookup _ c =>
    match (c.step o fresh s.now s.db).2 with
    | .inr (.record n) =>
      if n.status = .scheduled then none
      else some (Handlers.cancelResponse (.error (cannotCancel n.status)))
    | .inr (.error e) => some (Handlers.cancelResponse (.error (.repo e)))
    | _ => none
  | .cancelDelete _ c =>
    match (c.step o fresh s.now s.db).2 with
    | .inr .done => some (Handlers.cancelResponse (.ok ()))
    | .inr (.error e) => some (Handlers.cancelResponse (.error (.repo e)))
    | _ => none

variable {s : State}

theorem step_create_rejected {uuid : Nat} {req : CreateRequest} {address : Except String Unit}
    {chatID : Except String Int} {e : String}
    (h : validate uuid s.now req address chatID = .error e) :
    s.step (.create uuid req address chatID) = some s := by
  simp [step, h]

theorem cancelLookup_unscheduled {i : Nat} {o : Outcome} {fresh id : Nat} {c : RepoCall}
    {n : Notification} (hi : s.calls[i]? = some (.cancelLookup id c))
    (hr : (c.step o fresh s.now s.db).2 = .inr (.record n)) (hn : n.status ≠ .scheduled) :
    s.respond o fresh (.cancelLookup id c) = some ⟨500, .text "failed to cancel notification"⟩ ∧
      ∃ s', s.step (.call i o fresh) = some s' ∧ s'.db.rows = s.db.rows ∧
        s'.calls = s.calls.eraseIdx i := by
  refine ⟨by simp [respond, hr, hn, Handlers.cancelResponse, cannotCancel, errorResponse_of_ne], ?_⟩
  refine ⟨s.advanceCall i o fresh (.cancelLookup id c), by simp [step, hi], ?_, ?_⟩ <;>
    simp [advanceCall, hr, hn, dropCall, record, repoStep_fst, RepoCall.step_rows,
      RepoCall.written_of_record hr]

end State

/-- Validation and state rejections are answered as infrastructure failures are. A failed
store round trip is `500` with a fixed text; no bound create is answered `400` and no cancel
`409`. A bound create that validation rejects is answered `500 "failed to create
notification"` whatever the repository and the queue would do, and makes no call: nothing is
saved or published. A cancel whose lookup reads a record that is not `scheduled` is answered
`500 "failed to cancel notification"`, in the service and in the running system, where the
call ends without a table write. -/
theorem rejections_answer_500 :
    (∀ m, Handlers.createResponse (.error (.repo (.failed m))) =
      ⟨500, .text "failed to create notification"⟩) ∧
    (∀ m, Handlers.cancelResponse (.error (.repo (.failed m))) =
      ⟨500, .text "failed to cancel notification"⟩) ∧
    (∀ req service, (Handlers.createNotification (.ok req) service).status ≠ 400) ∧
    (∀ id service, (Handlers.cancelNotification (.ok id) service).status ≠ 409) ∧
    (∀ (s : State) uuid req address chatID e, validate uuid s.now req address chatID = .error e →
      s.step (.create uuid req address chatID) = some s ∧
      ∀ save publish, Handlers.createNotification (.ok req) (fun req =>
          NotificationService.createNotification uuid s.now req address chatID save publish) =
        ⟨500, .text "failed to create notification"⟩) ∧
    (∀ getByID delete id (n : Notification), getByID id = .ok n → n.status ≠ .scheduled →
      Handlers.cancelNotification (.ok id) (NotificationService.cancelNotification getByID delete) =
        ⟨500, .text "failed to cancel notification"⟩) ∧
    (∀ (s : State) i o fresh id c (n : Notification), s.calls[i]? = some (.cancelLookup id c) →
      (c.step o fresh s.now s.db).2 = .inr (.record n) → n.status ≠ .scheduled →
      s.respond o fresh (.cancelLookup id c) = some ⟨500, .text "failed to cancel notification"⟩ ∧
      ∃ s', s.step (.call i o fresh) = some s' ∧ s'.db.rows = s.db.rows ∧
        s'.calls = s.calls.eraseIdx i) := by
  refine ⟨fun m => errorResponse_of_ne (by simp), fun m => errorResponse_of_ne (by simp),
    fun req service => Handlers.createResponse_status_ne _,
    fun id service => Handlers.cancelResponse_status_ne _,
    fun s uuid req address chatID e h => ⟨State.step_create_rejected h, fun save publish => ?_⟩,
    fun getByID delete id n h hn => ?_,
    fun s i o fresh id c n hi hr hn => State.cancelLookup_unscheduled hi hr hn⟩
  · simp only [Handlers.createNotification, NotificationService.createNotification_rejected h]
    exact errorResponse_of_ne (by simp)
  · simp only [Handlers.cancelNotification, Handlers.withID,
      NotificationService.cancelNotification_unscheduled h hn]
    exact errorResponse_of_ne (by simp [cannotCancel])

/-- A `POST` with channel `sms`, and a `DELETE` of a notification that was sent. -/
theorem rejections_answer_500_at_sms_and_sent :
    validate 1 0 ⟨"a@b.co", "sms", "s", "", 0, none⟩ (.ok ()) (.error "") =
        .error "unknown channel: sms" ∧
      (State.init 0).step (.create 1 ⟨"a@b.co", "sms", "s", "", 0, none⟩ (.ok ()) (.error "")) =
        some (State.init 0) ∧
      Handlers.createNotification (.ok ⟨"a@b.co", "sms", "s", "", 0, none⟩) (fun req =>
          NotificationService.createNotification 1 0 req (.ok ()) (.error "") .ok (fun _ => .ok ())) =
        ⟨500, .text "failed to create notification"⟩ ∧
      Handlers.cancelNotification (.ok 1) (NotificationService.cancelNotification
          (fun _ => .ok { newEmailNotification 1 0 "a@b.co" "s" "" 0 none with status := .sent })
          (fun _ => .ok ())) =
        ⟨500, .text "failed to cancel notification"⟩ := by
  have hv : validate 1 0 ⟨"a@b.co", "sms", "s", "", 0, none⟩ (.ok ()) (.error "") =
      .error "unknown channel: sms" := by simp [validate]
  obtain ⟨-, -, -, -, hc, hd, -⟩ := rejections_answer_500
  exact ⟨hv, (hc (State.init 0) 1 _ _ _ _ hv).1, (hc (State.init 0) 1 _ _ _ _ hv).2 _ _,
    hd _ _ 1 _ rfl (by decide)⟩

end DelayedNotifier
