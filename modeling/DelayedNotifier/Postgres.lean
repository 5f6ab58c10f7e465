import DelayedNotifier.Domain
import Mathlib.Logic.Function.Basic

/-!
# The `notifications` table and its mappers

`db.Notification` rows, the three mappers of `storage/postgres/repository.go`, and the
statements of `query/notification.sql` run against the table. An insert takes its id from
`gen_random_uuid()` and its audit timestamps from `NOW()`, and is refused by the primary key
or by `chk_recipient_channel`; the `set_timestamp` trigger moves `updated_at` on every
update. Timestamps are kept at microsecond precision, as pgx writes them.
-/

namespace DelayedNotifier

structure Row where
  id : Nat
  subject : String
  message : String
  authorID : Option String
  emailTo : Option String
  telegramChatID : Option Int
  channel : Channel
  status : Status
  attempts : Int
  scheduledAt : Int
  sentAt : Option Int
  createdAt : Int
  updatedAt : Int
  deriving DecidableEq, Repr

structure CreateNotificationParams where
  subject : String
  message : String
  authorID : Option String
  emailTo : Option String
  telegramChatID : Option Int
  channel : Channel
  status : Status
  attempts : Int
  scheduledAt : Int
  deriving DecidableEq, Repr

structure UpdateNotificationStatusParams where
  id : Nat
  status : Status
  attempts : Int
  sentAt : Option Int
  deriving DecidableEq, Repr

def int16 (x : Int) : Int := x.bmod (2 ^ 16)

/-- A `timestamptz` as pgx encodes it: the instant truncated to whole microseconds. -/
def timestamptz (t : Int) : Int := t / 1000 * 1000

def toDBCreateParams (n : Notification) : Except String CreateNotificationParams :=
  let params : CreateNotificationParams :=
    { subject := n.subject, message := n.message, authorID := n.authorID, emailTo := none,
      telegramChatID := none, channel := n.channel, status := n.status,
      attempts := int16 n.attempts, scheduledAt := n.scheduledAt }
  match n.channel, n.email, n.telegram with
  | .email, some e, _ =>
    if e.address = "" then .error "email recipient is required for email channel"
    else .ok { params with emailTo := some e.address }
  | .email, none, _ => .error "email recipient is required for email channel"
  | .telegram, _, some t => .ok { params with telegramChatID := some t.chatID }
  | .telegram, _, none => .error "telegram recipient is required for telegram channel"

def toDBUpdateParams (n : Notification) : UpdateNotificationStatusParams :=
  { id := n.id, status := n.status, attempts := int16 n.attempts, sentAt := n.sentAt }

def toDomainModel (r : Row) : Notification :=
  { id := r.id, subject := r.subject, message := r.message, channel := r.channel,
    status := r.status, attempts := r.attempts, authorID := r.authorID,
    email := match r.channel with
      | .email => r.emailTo.map EmailDetails.mk
      | .telegram => none,
    telegram := match r.channel with
      | .telegram => r.telegramChatID.map TelegramDetails.mk
      | .email => none,
    scheduledAt := r.scheduledAt, sentAt := r.sentAt, createdAt := r.createdAt,
    updatedAt := r.updatedAt }

abbrev Table := Nat → Option Row

def Table.put (t : Table) (r : Row) : Table := Function.update t r.id (some r)

def recipientChannelCheck (p : CreateNotificationParams) : Bool :=
  match p.channel with
  | .email => p.emailTo.isSome && p.telegramChatID.isNone
  | .telegram => p.telegramChatID.isSome && p.emailTo.isNone

inductive PgError
  | uniqueViolation
  | checkViolation
  deriving DecidableEq, Repr

/-- `CreateNotification` (`INSERT ... RETURNING *`): `id` is the value `gen_random_uuid()`
gave and `now` the value of `NOW()`. -/
def createNotification (t : Table) (id : Nat) (now : Int) (p : CreateNotificationParams) :
    Except PgError Row :=
  if (t id).isSome then .error .uniqueViolation
  else if !recipientChannelCheck p then .error .checkViolation
  else .ok
    { id, subject := p.subject, message := p.message, authorID := p.authorID,
      emailTo := p.emailTo, telegramChatID := p.telegramChatID, channel := p.channel,
      status := p.status, attempts := p.attempts, scheduledAt := timestamptz p.scheduledAt,
      sentAt := none, createdAt := timestamptz now, updatedAt := timestamptz now }

def updateNotificationStatus (t : Table) (now : Int) (p : UpdateNotificationStatusParams) :
    Option Row :=
  (t p.id).map fun r =>
    { r with status := p.status, attempts := p.attempts, sentAt := p.sentAt.map timestamptz,
             updatedAt := timestamptz now }

def cancelNotification (t : Table) (now : Int) (id : Nat) : Option Row :=
  (t id).map fun r => { r with status := .cancelled, updatedAt := timestamptz now }

section Lemmas

variable {t : Table} {r r' : Row} {now : Int}

@[simp] theorem Table.put_self (t : Table) (r : Row) : t.put r r.id = some r := by
  simp [Table.put]

theorem Table.put_apply (t : Table) (r : Row) (k : Nat) :
    t.put r k = if k = r.id then some r else t k := by
  simp only [Table.put, Function.update_apply]

theorem int16_of_lt {x : Int} (h₀ : 0 ≤ x) (h : x < 2 ^ 15) : int16 x = x := by
  rw [int16, Int.bmod_def, Int.emod_eq_of_lt h₀ (by omega), if_pos (by omega)]

theorem createNotification_ok {id : Nat} {p : CreateNotificationParams}
    (h : createNotification t id now p = .ok r) :
    t id = none ∧ recipientChannelCheck p ∧ r.id = id ∧ r.channel = p.channel ∧
      r.status = p.status ∧ r.attempts = p.attempts ∧ r.emailTo = p.emailTo ∧
      r.telegramChatID = p.telegramChatID ∧ r.sentAt = none ∧
      r.scheduledAt = timestamptz p.scheduledAt := by
  unfold createNotification at h
  split_ifs at h with h1 h2
  cases h
  simp_all

theorem createNotification_recipientOk {n : Notification} {p : CreateNotificationParams}
    {id : Nat} (hp : toDBCreateParams n = .ok p) (h : createNotification t id now p = .ok r) :
    (toDomainModel r).recipientOk := by
  obtain ⟨-, -, -, hch, -, -, he, ht, -⟩ := createNotification_ok h
  unfold toDBCreateParams at hp
  split at hp <;> (try split_ifs at hp) <;> cases hp <;>
    simp_all [toDomainModel, Notification.recipientOk]

theorem updateNotificationStatus_some {p : UpdateNotificationStatusParams}
    (h : updateNotificationStatus t now p = some r') :
    ∃ r, t p.id = some r ∧
      r' = { r with status := p.status, attempts := p.attempts, sentAt := p.sentAt.map timestamptz,
                    updatedAt := timestamptz now } := by
  simp only [updateNotificationStatus, Option.map_eq_some'] at h
  obtain ⟨r, hr, rfl⟩ := h
  exact ⟨r, hr, rfl⟩

theorem cancelNotification_some {id : Nat} (h : cancelNotification t now id = some r') :
    ∃ r, t id = some r ∧ r' = { r with status := .cancelled, updatedAt := timestamptz now } := by
  simp only [cancelNotification, Option.map_eq_some'] at h
  obtain ⟨r, hr, rfl⟩ := h
  exact ⟨r, hr, rfl⟩

end Lemmas

end DelayedNotifier
