import DelayedNotifier.Postgres

/-!
# `CachedNotificationRepository`, one cache or database round trip at a time

Each method of the decorator is a short program over the Redis cache and the primary
repository: `GetByID` reads the cache, falls through to the table on a miss or any cache
error, and then writes the cache; `Save` writes the table and then the cache; `Update` and
`Delete` write the table and then delete the cache entry. A call in progress is a
`RepoCall` naming the round trip it makes next, and `RepoCall.step` makes it under an
`Outcome`: a transient failure before the round trip took effect, or after it did.
A cache failure is logged and swallowed, exactly as the decorator does.
-/

namespace DelayedNotifier

/-- The result of one round trip to Postgres, Redis or RabbitMQ. `fail`: an error, and the
request had no effect. `lost`: the request took effect and the caller still got an error. -/
inductive Outcome
  | ok
  | fail
  | lost
  deriving DecidableEq, Repr

def Outcome.applied : Outcome → Bool
  | .fail => false
  | _ => true

/-- The table and the cache; the cache holds decoded copies keyed by id
(`redis:notification:<id>`). -/
structure Db where
  rows : Table
  cache : Nat → Option Notification

def Db.cacheSet (d : Db) (o : Outcome) (n : Notification) : Db :=
  if o.applied then { d with cache := Function.update d.cache n.id (some n) } else d

def Db.cacheDelete (d : Db) (o : Outcome) (id : Nat) : Db :=
  if o.applied then { d with cache := Function.update d.cache id none } else d

def Db.put (d : Db) (r : Row) : Db := { d with rows := d.rows.put r }

inductive RepoError
  | notFound
  | duplicateRecord
  | invalid (msg : String)
  | failed (msg : String)
  deriving DecidableEq, Repr

/-- A call of the decorator, at the round trip it makes next. -/
inductive RepoCall
  | getByID (id : Nat)
  | getByIDPrimary (id : Nat)
  | getByIDFill (n : Notification)
  | save (n : Notification)
  | saveFill (n : Notification)
  | update (n : Notification)
  | updateInvalidate (id : Nat)
  | delete (id : Nat)
  | deleteInvalidate (id : Nat)
  deriving DecidableEq, Repr

inductive RepoReply
  | record (n : Notification)
  | done
  | error (e : RepoError)
  deriving DecidableEq, Repr

/-- A cache read under outcome `o`: any error is treated as a miss. -/
def Outcome.read {α : Type} (o : Outcome) (x : Option α) : Option α :=
  match o with
  | .ok => x
  | _ => none

theorem Outcome.read_some {α : Type} {o : Outcome} {x : Option α} {a : α}
    (h : o.read x = some a) : x = some a := by
  cases o <;> simp_all [Outcome.read]

def Outcome.commit (o : Outcome) (d : Db) (r : Row) (next : RepoCall) (msg : String) :
    Db × (RepoCall ⊕ RepoReply) :=
  match o with
  | .ok => (d.put r, .inl next)
  | .fail => (d, .inr (.error (.failed msg)))
  | .lost => (d.put r, .inr (.error (.failed msg)))

/-- One round trip of the call under outcome `o`, at instant `now`; `fresh` is the id
`gen_random_uuid()` gives an insert. The call either continues or replies. -/
def RepoCall.step (o : Outcome) (fresh : Nat) (now : Int) (d : Db) :
    RepoCall → Db × (RepoCall ⊕ RepoReply)
  | .getByID id =>
    match o.read (d.cache id) with
    | some n => (d, .inr (.record n))
    | none => (d, .inl (.getByIDPrimary id))
  | .getByIDPrimary id =>
    match o.read (d.rows id) with
    | some r => (d, .inl (.getByIDFill (toDomainModel r)))
    | none =>
      (d, .inr (.error (if o = .ok then .notFound
        else .failed "postgres: GetNotificationByID failed")))
  | .getByIDFill n => (d.cacheSet o n, .inr (.record n))
  | .save n =>
    match toDBCreateParams n with
    | .error e => (d, .inr (.error (.invalid e)))
    | .ok p =>
      if o = .fail then (d, .inr (.error (.failed "postgres: CreateNotification failed")))
      else
        match createNotification d.rows fresh now p with
        | .error .uniqueViolation => (d, .inr (.error .duplicateRecord))
        | .error .checkViolation =>
          (d, .inr (.error (.failed "postgres: CreateNotification failed")))
        | .ok r =>
          o.commit d r (.saveFill (toDomainModel r)) "postgres: CreateNotification failed"
  | .saveFill n => (d.cacheSet o n, .inr (.record n))
  | .update n =>
    if o = .fail then (d, .inr (.error (.failed "postgres: UpdateNotificationStatus failed")))
    else
      match updateNotificationStatus d.rows now (toDBUpdateParams n) with
      | none => (d, .inr (.error .notFound))
      | some r => o.commit d r (.updateInvalidate n.id) "postgres: UpdateNotificationStatus failed"
  | .updateInvalidate id => (d.cacheDelete o id, .inr .done)
  | .delete id =>
    if o = .fail then (d, .inr (.error (.failed "postgres: CancelNotification failed")))
    else
      match cancelNotification d.rows now id with
      | none => (d, .inr (.error .notFound))
      | some r => o.commit d r (.deleteInvalidate id) "postgres: CancelNotification failed"
  | .deleteInvalidate id => (d.cacheDelete o id, .inr .done)

def RepoCall.written (o : Outcome) (fresh : Nat) (now : Int) (d : Db) : RepoCall → Option Row
  | .save n =>
    if o = .fail then none
    else match toDBCreateParams n with
      | .ok p => (createNotification d.rows fresh now p).toOption
      | .error _ => none
  | .update n => if o = .fail then none else updateNotificationStatus d.rows now (toDBUpdateParams n)
  | .delete id => if o = .fail then none else cancelNotification d.rows now id
  | _ => none

def RepoCall.isEntry : RepoCall → Bool
  | .getByID _ | .save _ | .update _ | .delete _ => true
  | _ => false

def RepoCall.filling : RepoCall → Option Notification
  | .getByIDFill n | .saveFill n => some n
  | _ => none

def RepoCall.invalidates : RepoCall → Option Nat
  | .updateInvalidate id | .deleteInvalidate id => some id
  | _ => none

def RepoCall.writes (fresh : Nat) : RepoCall → Option Nat
  | .save _ => some fresh
  | .update n => some n.id
  | .delete id => some id
  | _ => none

def RepoCall.handed : RepoCall ⊕ RepoReply → Option Notification
  | .inl c => c.filling
  | .inr (.record n) => some n
  | .inr _ => none

section Spec

variable {fresh : Nat} {now : Int} {d : Db}

@[simp] theorem Db.cacheSet_rows (d : Db) (o : Outcome) (n : Notification) :
    (d.cacheSet o n).rows = d.rows := by
  unfold Db.cacheSet; split <;> rfl

@[simp] theorem Db.cacheDelete_rows (d : Db) (o : Outcome) (id : Nat) :
    (d.cacheDelete o id).rows = d.rows := by
  unfold Db.cacheDelete; split <;> rfl

@[simp] theorem Db.put_rows (d : Db) (r : Row) : (d.put r).rows = d.rows.put r := rfl

@[simp] theorem Db.put_cache (d : Db) (r : Row) : (d.put r).cache = d.cache := rfl

theorem Db.cacheSet_entry {o : Outcome} {n n' : Notification} {k : Nat}
    (h : (d.cacheSet o n).cache k = some n') : n' = n ∨ d.cache k = some n' := by
  unfold Db.cacheSet at h
  split_ifs at h
  · simp only [Function.update_apply] at h
    split_ifs at h
    · exact .inl (Option.some.inj h).symm
    · exact .inr h
  · exact .inr h

theorem Db.cacheDelete_entry {o : Outcome} {id k : Nat} {n : Notification}
    (h : (d.cacheDelete o id).cache k = some n) : d.cache k = some n := by
  unfold Db.cacheDelete at h
  split_ifs at h
  · simp only [Function.update_apply] at h
    split_ifs at h
    exact h
  · exact h

theorem Outcome.commit_fst {o : Outcome} (ho : ¬o = .fail) (d : Db) (r : Row) (next : RepoCall)
    (msg : String) : (o.commit d r next msg).1 = d.put r := by
  cases o
  · rfl
  · exact absurd rfl ho
  · rfl

theorem Outcome.commit_snd (o : Outcome) (d : Db) (r : Row) (next : RepoCall) (msg : String) :
    (o.commit d r next msg).2 = if o = .ok then .inl next else .inr (.error (.failed msg)) := by
  cases o <;> rfl

theorem RepoCall.step_ok_cases (c : RepoCall) (fresh : Nat) (now : Int) (d : Db) :
    let p := c.step .ok fresh now d
    (p.1 = d ∧ c.invalidates = none ∧ c.filling = none ∧
      ((∃ rep, p.2 = .inr rep) ∨ (∃ id, p.2 = .inl (.getByIDPrimary id)) ∨
        ∃ id r, c = .getByIDPrimary id ∧ d.rows id = some r ∧
          p.2 = .inl (.getByIDFill (toDomainModel r)))) ∨
    (∃ n rep, c.filling = some n ∧ c.invalidates = none ∧ p.1 = d.cacheSet .ok n ∧
      p.2 = .inr rep) ∨
    (∃ k rep, c.invalidates = some k ∧ p.1 = d.cacheDelete .ok k ∧ p.2 = .inr rep) ∨
    (∃ n r, c = .save n ∧ d.rows fresh = none ∧ r.id = fresh ∧ p.1 = d.put r ∧
      p.2 = .inl (.saveFill (toDomainModel r))) ∨
    (∃ k r r', c.writes fresh = some k ∧ c.invalidates = none ∧ c.filling = none ∧
      d.rows k = some r ∧ p.1 = d.put r' ∧ r'.id = r.id ∧
      ∃ c', p.2 = .inl c' ∧ c'.invalidates = some k ∧ c'.filling = none) := by
  cases c with
  | getByID id =>
    left; simp only [RepoCall.step, Outcome.read]; split <;> simp [RepoCall.invalidates, RepoCall.filling]
  | getByIDPrimary id =>
    left; simp only [RepoCall.step, Outcome.read]; split <;> simp_all [RepoCall.invalidates, RepoCall.filling]
  | getByIDFill n => right; left; exact ⟨n, _, rfl, rfl, rfl, rfl⟩
  | saveFill n => right; left; exact ⟨n, _, rfl, rfl, rfl, rfl⟩
  | updateInvalidate id => right; right; left; exact ⟨id, _, rfl, rfl, rfl⟩
  | deleteInvalidate id => right; right; left; exact ⟨id, _, rfl, rfl, rfl⟩
  | save n =>
    simp only [RepoCall.step, reduceCtorEq, if_false, Outcome.commit]
    split
    · left; simp [RepoCall.invalidates, RepoCall.filling]
    · split
      · left; simp [RepoCall.invalidates, RepoCall.filling]
      · left; simp [RepoCall.invalidates, RepoCall.filling]
      · rename_i r hr
        have := createNotification_ok hr
        right; right; right; left
        exact ⟨n, r, rfl, this.1, this.2.2.1, rfl, rfl⟩
  | update n =>
    simp only [RepoCall.step, reduceCtorEq, if_false, Outcome.commit]
    split
    · left; simp [RepoCall.invalidates, RepoCall.filling]
    · rename_i r' hr'
      obtain ⟨r, hr, rfl⟩ := updateNotificationStatus_some hr'
      right; right; right; right
      exact ⟨n.id, r, _, rfl, rfl, rfl, hr, rfl, rfl, _, rfl, rfl, rfl⟩
  | delete id =>
    simp only [RepoCall.step, reduceCtorEq, if_false, Outcome.commit]
    split
    · left; simp [RepoCall.invalidates, RepoCall.filling]
    · rename_i r' hr'
      obtain ⟨r, hr, rfl⟩ := cancelNotification_some hr'
      right; right; right; right
      exact ⟨id, r, _, rfl, rfl, rfl, hr, rfl, rfl, _, rfl, rfl, rfl⟩

theorem RepoCall.step_rows (o : Outcome) (c : RepoCall) :
    (c.step o fresh now d).1.rows = match c.written o fresh now d with
      | some r => d.rows.put r
      | none => d.rows := by
  cases c with
  | save n =>
    simp only [RepoCall.step, RepoCall.written]
    split_ifs with ho
    · split <;> rfl
    · split
      · rename_i h; simp [h]
      · rename_i p hp
        simp only [hp]
        split <;> rename_i h <;> simp [h, Except.toOption, Outcome.commit_fst ho]
  | update n =>
    simp only [RepoCall.step, RepoCall.written]
    split_ifs with ho
    · simp
    · split <;> rename_i h <;> simp [h, Outcome.commit_fst ho]
  | delete id =>
    simp only [RepoCall.step, RepoCall.written]
    split_ifs with ho
    · simp
    · split <;> rename_i h <;> simp [h, Outcome.commit_fst ho]
  | getByID id => simp only [RepoCall.step, RepoCall.written]; split <;> rfl
  | getByIDPrimary id => simp only [RepoCall.step, RepoCall.written]; split <;> rfl
  | getByIDFill n => simp [RepoCall.step, RepoCall.written]
  | saveFill n => simp [RepoCall.step, RepoCall.written]
  | updateInvalidate id => simp [RepoCall.step, RepoCall.written]
  | deleteInvalidate id => simp [RepoCall.step, RepoCall.written]

theorem RepoCall.written_cases {o : Outcome} {c : RepoCall} {r : Row}
    (h : c.written o fresh now d = some r) :
    (∃ n p, c = .save n ∧ toDBCreateParams n = .ok p ∧ createNotification d.rows fresh now p = .ok r) ∨
    (∃ n, c = .update n ∧ updateNotificationStatus d.rows now (toDBUpdateParams n) = some r) ∨
    (∃ id, c = .delete id ∧ cancelNotification d.rows now id = some r) := by
  cases c with
  | save n =>
    simp only [RepoCall.written] at h
    split_ifs at h
    split at h
    · rename_i p hp
      cases hc : createNotification d.rows fresh now p with
      | error e => simp [hc, Except.toOption] at h
      | ok r' =>
        simp only [hc, Except.toOption, Option.some.injEq] at h
        exact .inl ⟨n, p, rfl, hp, h ▸ hc⟩
    · cases h
  | update n =>
    simp only [RepoCall.written] at h
    split_ifs at h
    exact .inr (.inl ⟨n, rfl, h⟩)
  | delete id =>
    simp only [RepoCall.written] at h
    split_ifs at h
    exact .inr (.inr ⟨id, rfl, h⟩)
  | _ => cases h

theorem RepoCall.step_db (o : Outcome) (c : RepoCall) :
    (c.step o fresh now d).1 = d ∨
      (∃ n, c.filling = some n ∧ (c.step o fresh now d).1 = d.cacheSet o n) ∨
      (∃ k, (c.step o fresh now d).1 = d.cacheDelete o k) ∨
      ∃ r, c.written o fresh now d = some r ∧ (c.step o fresh now d).1 = d.put r := by
  cases c with
  | getByID id => left; simp only [RepoCall.step]; split <;> rfl
  | getByIDPrimary id => left; simp only [RepoCall.step]; split <;> rfl
  | getByIDFill n => exact .inr (.inl ⟨n, rfl, rfl⟩)
  | saveFill n => exact .inr (.inl ⟨n, rfl, rfl⟩)
  | updateInvalidate id => exact .inr (.inr (.inl ⟨id, rfl⟩))
  | deleteInvalidate id => exact .inr (.inr (.inl ⟨id, rfl⟩))
  | save n =>
    simp only [RepoCall.step, RepoCall.written]
    split
    · simp
    · rename_i p hp
      split_ifs with ho
      · simp
      · simp only [hp]
        split <;> rename_i h <;> simp [h, Except.toOption, Outcome.commit_fst ho]
  | update n =>
    simp only [RepoCall.step, RepoCall.written]
    split_ifs with ho
    · simp
    · split <;> rename_i h <;> simp [h, Outcome.commit_fst ho]
  | delete id =>
    simp only [RepoCall.step, RepoCall.written]
    split_ifs with ho
    · simp
    · split <;> rename_i h <;> simp [h, Outcome.commit_fst ho]

theorem RepoCall.step_inl (o : Outcome) (c : RepoCall) {c' : RepoCall}
    (h : (c.step o fresh now d).2 = .inl c') :
    (∃ k, c = .getByID k ∧ c' = .getByIDPrimary k) ∨
    (∃ k r, c = .getByIDPrimary k ∧ d.rows k = some r ∧ c' = .getByIDFill (toDomainModel r)) ∨
    (∃ n r, c = .save n ∧ c.written o fresh now d = some r ∧ c' = .saveFill (toDomainModel r)) ∨
    (∃ n r, c = .update n ∧ c.written o fresh now d = some r ∧ c' = .updateInvalidate n.id) ∨
    (∃ k r, c = .delete k ∧ c.written o fresh now d = some r ∧ c' = .deleteInvalidate k) := by
  cases c with
  | getByID k =>
    simp only [RepoCall.step] at h
    split at h <;> cases h
    exact .inl ⟨k, rfl, rfl⟩
  | getByIDPrimary k =>
    simp only [RepoCall.step] at h
    split at h
    · rename_i r hr
      cases h; exact .inr (.inl ⟨k, r, rfl, Outcome.read_some hr, rfl⟩)
    · cases h
  | save n =>
    simp only [RepoCall.step, RepoCall.written] at h ⊢
    split at h
    · cases h
    · rename_i p hp
      split_ifs at h with ho
      simp only [hp, if_neg ho]
      split at h <;> (try cases h)
      rename_i r hc
      rw [Outcome.commit_snd] at h
      split_ifs at h
      cases h
      exact .inr (.inr (.inl ⟨n, r, rfl, by rw [hc]; rfl, rfl⟩))
  | update n =>
    simp only [RepoCall.step, RepoCall.written] at h ⊢
    split_ifs at h with ho
    simp only [if_neg ho]
    split at h
    · cases h
    · rename_i r hr
      rw [Outcome.commit_snd] at h
      split_ifs at h
      cases h
      exact .inr (.inr (.inr (.inl ⟨n, r, rfl, hr, rfl⟩)))
  | delete k =>
    simp only [RepoCall.step, RepoCall.written] at h ⊢
    split_ifs at h with ho
    simp only [if_neg ho]
    split at h
    · cases h
    · rename_i r hr
      rw [Outcome.commit_snd] at h
      split_ifs at h
      cases h
      exact .inr (.inr (.inr (.inr ⟨k, r, rfl, hr, rfl⟩)))
  | _ => simp [RepoCall.step] at h

theorem RepoCall.step_record (o : Outcome) (c : RepoCall) {n : Notification}
    (h : (c.step o fresh now d).2 = .inr (.record n)) :
    (∃ k, c = .getByID k ∧ d.cache k = some n) ∨ c.filling = some n := by
  cases c with
  | getByID k =>
    simp only [RepoCall.step] at h
    split at h
    · rename_i n' hn'
      cases h; exact .inl ⟨k, rfl, Outcome.read_some hn'⟩
    · cases h
  | getByIDFill n' | saveFill n' => cases h; exact .inr rfl
  | getByIDPrimary k =>
    simp only [RepoCall.step] at h
    split at h <;> cases h
  | save n' =>
    simp only [RepoCall.step] at h
    split at h
    · cases h
    · split_ifs at h
      · cases h
      · split at h <;> (try cases h)
        rw [Outcome.commit_snd] at h
        split_ifs at h
        cases h
  | update n' =>
    simp only [RepoCall.step] at h
    split_ifs at h
    · cases h
    · split at h <;> (try cases h)
      rw [Outcome.commit_snd] at h
      split_ifs at h
      cases h
  | delete k =>
    simp only [RepoCall.step] at h
    split_ifs at h
    · cases h
    · split at h <;> (try cases h)
      rw [Outcome.commit_snd] at h
      split_ifs at h
      cases h
  | updateInvalidate k | deleteInvalidate k => cases h

theorem RepoCall.update_reply (o : Outcome) (n : Notification) {r : RepoReply}
    (h : ((RepoCall.update n).step o fresh now d).2 = .inr r) : ∃ e, r = .error e := by
  simp only [RepoCall.step] at h
  split_ifs at h
  · cases h; exact ⟨_, rfl⟩
  · split at h
    · cases h; exact ⟨_, rfl⟩
    · rw [Outcome.commit_snd] at h
      split_ifs at h
      cases h; exact ⟨_, rfl⟩

theorem RepoCall.handed_source (o : Outcome) (c : RepoCall) {n : Notification}
    (h : RepoCall.handed (c.step o fresh now d).2 = some n) :
    c.filling = some n ∨ (∃ k, d.cache k = some n) ∨
      (∃ k r, d.rows k = some r ∧ n = toDomainModel r) ∨
      ∃ r, c.written o fresh now d = some r ∧ n = toDomainModel r := by
  cases c with
  | getByID id =>
    simp only [RepoCall.step] at h
    split at h
    · rename_i n' hn'
      simp only [RepoCall.handed, Option.some.injEq] at h
      subst h
      exact .inr (.inl ⟨id, Outcome.read_some hn'⟩)
    · simp [RepoCall.handed, RepoCall.filling] at h
  | getByIDPrimary id =>
    simp only [RepoCall.step] at h
    split at h
    · rename_i r hr
      simp only [RepoCall.handed, RepoCall.filling, Option.some.injEq] at h
      exact .inr (.inr (.inl ⟨id, r, Outcome.read_some hr, h.symm⟩))
    · simp [RepoCall.handed] at h
  | getByIDFill n' => simp_all [RepoCall.step, RepoCall.handed, RepoCall.filling]
  | saveFill n' => simp_all [RepoCall.step, RepoCall.handed, RepoCall.filling]
  | updateInvalidate id => simp [RepoCall.step, RepoCall.handed] at h
  | deleteInvalidate id => simp [RepoCall.step, RepoCall.handed] at h
  | save n' =>
    simp only [RepoCall.step, RepoCall.written] at h ⊢
    split at h
    · simp [RepoCall.handed] at h
    · rename_i p hp
      split_ifs at h with ho
      · simp [RepoCall.handed] at h
      · split at h <;> (try cases h)
        rename_i r hc
        rw [Outcome.commit_snd] at h
        split_ifs at h
        · cases h
          exact .inr (.inr (.inr ⟨r, by simp [hp, hc, ho, Except.toOption], rfl⟩))
        · cases h
  | update n' =>
    simp only [RepoCall.step] at h
    split_ifs at h
    · cases h
    · split at h <;> (try cases h)
      rw [Outcome.commit_snd] at h
      split_ifs at h <;> cases h
  | delete id =>
    simp only [RepoCall.step] at h
    split_ifs at h
    · cases h
    · split at h <;> (try cases h)
      rw [Outcome.commit_snd] at h
      split_ifs at h <;> cases h

end Spec

theorem pool_split {α : Type} {l : List α} {i : Nat} {x : α} (h : l[i]? = some x) (y : α) :
    ∃ pre post, l = pre ++ x :: post ∧ l.set i y = pre ++ y :: post ∧
      l.eraseIdx i = pre ++ post := by
  obtain ⟨hi, rfl⟩ := List.getElem?_eq_some_iff.1 h
  refine ⟨l.take i, l.drop (i + 1), ?_, ?_, List.eraseIdx_eq_take_drop_succ l i⟩
  · conv_lhs => rw [← List.take_append_drop i l, List.drop_eq_getElem_cons hi]
  · rw [List.set_eq_take_append_cons_drop, if_pos hi]

end DelayedNotifier
