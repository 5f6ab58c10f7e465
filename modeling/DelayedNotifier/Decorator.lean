import DelayedNotifier.RoundTrip

/-!
# One call at a time, the decorator is the repository it decorates

`CachedNotificationRepository` implements the interface of the Postgres
`NotificationRepository` it wraps. For a caller that makes one call at a time, with every cache
and table round trip succeeding and cache entries lapsing between calls, the cache cannot be
observed: the decorator returns exactly what the plain repository returns on the same calls
(`decorator_refines_repository`). Between calls every cache entry is the record its row reads
as (`Db.Current`), and each method keeps that: `Save` and a missed `GetByID` put the row they
wrote or read into the cache, and `Update` and `Delete` drop the entry of the row they wrote.
-/

namespace DelayedNotifier

def NotificationRepository.update (t : Table) (now : Int) (n : Notification) :
    Except RepoError Table :=
  match updateNotificationStatus t now (toDBUpdateParams n) with
  | some r => .ok (t.put r)
  | none => .error .notFound

def NotificationRepository.delete (t : Table) (now : Int) (id : Nat) : Except RepoError Table :=
  match cancelNotification t now id with
  | some r => .ok (t.put r)
  | none => .error .notFound

inductive RepoRequest
  | getByID (id : Nat)
  | save (n : Notification)
  | update (n : Notification)
  | delete (id : Nat)
  deriving DecidableEq, Repr

def RepoRequest.call : RepoRequest → RepoCall
  | .getByID id => .getByID id
  | .save n => .save n
  | .update n => .update n
  | .delete id => .delete id

def NotificationRepository.handle (t : Table) (fresh : Nat) (now : Int) :
    RepoRequest → Table × RepoReply
  | .getByID id =>
    match NotificationRepository.getByID t id with
    | .ok n => (t, .record n)
    | .error e => (t, .error e)
  | .save n =>
    match NotificationRepository.save t fresh now n with
    | .ok (t', n') => (t', .record n')
    | .error e => (t, .error e)
  | .update n =>
    match NotificationRepository.update t now n with
    | .ok t' => (t', .done)
    | .error e => (t, .error e)
  | .delete id =>
    match NotificationRepository.delete t now id with
    | .ok t' => (t', .done)
    | .error e => (t, .error e)

/-- A decorator call run to its reply, every round trip succeeding. `fuel` bounds the round
trips; a method makes at most three (`GetByID` on a miss). -/
def RepoCall.finish (fresh : Nat) (now : Int) : Nat → Db → RepoCall → Db × RepoReply
  | 0, d, _ => (d, .done)
  | fuel + 1, d, c =>
    match c.step .ok fresh now d with
    | (d', .inl c') => RepoCall.finish fresh now fuel d' c'
    | (d', .inr r) => (d', r)

inductive RepoUse
  | call (q : RepoRequest) (fresh : Nat) (now : Int)
  | expire (id : Nat)
  deriving DecidableEq, Repr

def Db.serve : Db → List RepoUse → List RepoReply
  | _, [] => []
  | d, .call q fresh now :: us =>
    let p := q.call.finish fresh now 3 d
    p.2 :: p.1.serve us
  | d, .expire id :: us => (d.cacheDelete .ok id).serve us

def Table.serve : Table → List RepoUse → List RepoReply
  | _, [] => []
  | t, .call q fresh now :: us =>
    let p := NotificationRepository.handle t fresh now q
    p.2 :: p.1.serve us
  | t, .expire _ :: us => t.serve us

/-- Between calls: every row sits under its own id, and every cache entry is the record its
row reads as. -/
structure Db.Current (d : Db) : Prop where
  keyed : ∀ k r, d.rows k = some r → r.id = k
  cached : ∀ k n, d.cache k = some n → ∃ r, d.rows k = some r ∧ toDomainModel r = n

section Steps

variable (d : Db) (fresh : Nat) (now : Int)

theorem RepoCall.update_step (n : Notification) :
    (RepoCall.update n).step .ok fresh now d =
      match NotificationRepository.update d.rows now n with
      | .ok t => ({ d with rows := t }, .inl (.updateInvalidate n.id))
      | .error e => (d, .inr (.error e)) := by
  simp only [RepoCall.step, NotificationRepository.update, reduceCtorEq, if_false]
  cases updateNotificationStatus d.rows now (toDBUpdateParams n) <;> rfl

theorem RepoCall.delete_step (id : Nat) :
    (RepoCall.delete id).step .ok fresh now d =
      match NotificationRepository.delete d.rows now id with
      | .ok t => ({ d with rows := t }, .inl (.deleteInvalidate id))
      | .error e => (d, .inr (.error e)) := by
  simp only [RepoCall.step, NotificationRepository.delete, reduceCtorEq, if_false]
  cases cancelNotification d.rows now id <;> rfl

end Steps

namespace Db.Current

variable {d : Db} {r : Row}

theorem cacheDelete (h : d.Current) (id : Nat) : (d.cacheDelete .ok id).Current := by
  refine ⟨h.keyed, fun k n hk => ?_⟩
  simp only [Db.cacheDelete, Outcome.applied, if_true, Function.update_apply] at hk
  split_ifs at hk
  exact h.cached k n hk

theorem cacheSet (h : d.Current) (hr : d.rows r.id = some r) :
    (d.cacheSet .ok (toDomainModel r)).Current := by
  refine ⟨h.keyed, fun k n hk => ?_⟩
  simp only [Db.cacheSet, Outcome.applied, if_true, Function.update_apply] at hk
  split_ifs at hk with e
  · cases hk; exact ⟨r, e ▸ hr, rfl⟩
  · exact h.cached k n hk

theorem invalidate (h : d.Current) (r : Row) :
    ({ d with rows := d.rows.put r }.cacheDelete .ok r.id).Current := by
  refine ⟨fun k r' hk => ?_, fun k n hk => ?_⟩
  · simp only [Db.cacheDelete, Outcome.applied, if_true, Table.put_apply] at hk
    split_ifs at hk with e
    · cases hk; exact e.symm
    · exact h.keyed k r' hk
  · simp only [Db.cacheDelete, Outcome.applied, if_true, Function.update_apply] at hk
    split_ifs at hk with e
    obtain ⟨r', hr', hn⟩ := h.cached k n hk
    exact ⟨r', by simp [Table.put_apply, e, hr'], hn⟩

theorem insert (h : d.Current) (hfree : d.rows r.id = none) :
    ({ d with rows := d.rows.put r } : Db).Current := by
  refine ⟨fun k r' hk => ?_, fun k n hk => ?_⟩
  · simp only [Table.put_apply] at hk
    split_ifs at hk with e
    · cases hk; exact e.symm
    · exact h.keyed k r' hk
  · obtain ⟨r', hr', hn⟩ := h.cached k n hk
    have e : k ≠ r.id := by rintro rfl; rw [hfree] at hr'; cases hr'
    exact ⟨r', by simp [Table.put_apply, e, hr'], hn⟩

end Db.Current

variable {d : Db}

theorem RepoCall.finish_call (fresh : Nat) (now : Int) (hd : d.Current) (q : RepoRequest) :
    (q.call.finish fresh now 3 d).1.rows = (NotificationRepository.handle d.rows fresh now q).1 ∧
      (q.call.finish fresh now 3 d).2 = (NotificationRepository.handle d.rows fresh now q).2 ∧
      (q.call.finish fresh now 3 d).1.Current := by
  cases q with
  | getByID id =>
    cases hc : d.cache id with
    | some n =>
      obtain ⟨r, hr, rfl⟩ := hd.cached id n hc
      simp [RepoRequest.call, RepoCall.finish, RepoCall.step, Outcome.read, hc,
        NotificationRepository.handle, NotificationRepository.getByID, hr, hd]
    | none =>
      cases hr : d.rows id with
      | none =>
        simp [RepoRequest.call, RepoCall.finish, RepoCall.step, Outcome.read, hc, hr,
          NotificationRepository.handle, NotificationRepository.getByID, hd]
      | some r =>
        have hid := hd.keyed id r hr
        subst hid
        simp [RepoRequest.call, RepoCall.finish, RepoCall.step, Outcome.read, hc, hr,
          NotificationRepository.handle, NotificationRepository.getByID, hd.cacheSet hr]
  | save n =>
    simp only [RepoRequest.call, RepoCall.finish, RepoCall.save_step, NotificationRepository.handle]
    rcases hs : NotificationRepository.save d.rows fresh now n with e | ⟨t, n'⟩
    · exact ⟨rfl, rfl, hd⟩
    · obtain ⟨p, r, -, hr, rfl, rfl⟩ := NotificationRepository.save_ok hs
      obtain ⟨hfree, -, hid, -⟩ := createNotification_ok hr
      subst hid
      exact ⟨rfl, rfl, (hd.insert hfree).cacheSet (Table.put_self _ _)⟩
  | update n =>
    simp only [RepoRequest.call, RepoCall.finish, RepoCall.update_step,
      NotificationRepository.handle]
    rcases hu : NotificationRepository.update d.rows now n with e | t
    · exact ⟨rfl, rfl, hd⟩
    · simp only [NotificationRepository.update] at hu
      split at hu <;> cases hu
      rename_i r hr
      obtain ⟨r₀, h₀, rfl⟩ := updateNotificationStatus_some hr
      have hid : r₀.id = n.id := hd.keyed _ r₀ h₀
      refine ⟨rfl, rfl, ?_⟩
      simpa [RepoCall.step, hid] using hd.invalidate { r₀ with
        status := (toDBUpdateParams n).status, attempts := (toDBUpdateParams n).attempts,
        sentAt := (toDBUpdateParams n).sentAt.map timestamptz, updatedAt := timestamptz now }
  | delete id =>
    simp only [RepoRequest.call, RepoCall.finish, RepoCall.delete_step,
      NotificationRepository.handle]
    rcases hu : NotificationRepository.delete d.rows now id with e | t
    · exact ⟨rfl, rfl, hd⟩
    · simp only [NotificationRepository.delete] at hu
      split at hu <;> cases hu
      rename_i r hr
      obtain ⟨r₀, h₀, rfl⟩ := cancelNotification_some hr
      have hid : r₀.id = id := hd.keyed _ r₀ h₀
      refine ⟨rfl, rfl, ?_⟩
      simpa [RepoCall.step, hid] using
        hd.invalidate { r₀ with status := .cancelled, updatedAt := timestamptz now }

/-- For a caller that makes one call at a time, with every round trip succeeding and cache
entries lapsing at any point between calls, the decorator over a current table and cache
returns exactly what the plain repository over that table returns. -/
theorem decorator_refines_repository (hd : d.Current) (us : List RepoUse) :
    d.serve us = d.rows.serve us := by
  induction us generalizing d with
  | nil => rfl
  | cons u us ih =>
    cases u with
    | call q fresh now =>
      obtain ⟨hrows, hreply, hcur⟩ := RepoCall.finish_call fresh now hd q
      simp only [Db.serve, Table.serve, hreply, ih hcur, hrows]
    | expire id => exact ih (hd.cacheDelete id)

private def session : List RepoUse :=
  [.call (.save (newEmailNotification 7 0 "a@b.co" "s" "" 1500 none)) 1 0, .call (.getByID 1) 0 10,
   .call (.update { newEmailNotification 1 0 "a@b.co" "s" "" 1500 none with status := .sent }) 0 20,
   .expire 1, .call (.getByID 1) 0 30]

theorem decorator_refines_repository_from_empty :
    (⟨fun _ => none, fun _ => none⟩ : Db).Current ∧
      (⟨fun _ => none, fun _ => none⟩ : Db).serve session = Table.serve (fun _ => none) session :=
  have h : (⟨fun _ => none, fun _ => none⟩ : Db).Current := ⟨by simp, by simp⟩
  ⟨h, decorator_refines_repository h session⟩

end DelayedNotifier
