import DelayedNotifier.FinalRecord

/-!
# No pending notification is stuck

A notification whose row is `scheduled`, whose `Publish` RabbitMQ took and which no worker has
acked unchecked after a failed read (`State.Pending`) still has a copy on the broker or with a
worker (`reach_noLoss`). Unless that worker is the one about to ack it unchecked, from any
reachable state the workers and the broker alone, with every round trip and every `Send`
succeeding, can take that copy through the rest of `handleMessage`: release it from its delay
queue, deliver it, revalidate it (the read says `scheduled`, since a record read as anything
else vouches for a settled row), send it, and write `sent`. The only other end is a worker that
has already decided on `failed` after the fifth failed `Send` and is about to write it
(`pending_completes`). Each phase of the handler is one lemma about `State.Leads`.
-/

namespace DelayedNotifier

/-- Worker and broker steps in which every round trip and every `Send` succeeds: no API
request, no API call step and no crash. -/
def workerOnly (_ : State) : Action → Bool
  | .deliver _ | .deadLetter _ | .tick _ => true
  | .job _ o => o == .ok
  | .send _ ok => ok
  | _ => false

/-- Some run of `workerOnly` steps from `s` ends in a state where `G` holds. -/
def State.Leads (s : State) (G : State → Prop) : Prop :=
  ∃ as s', s.run workerOnly as = some s' ∧ G s'

def State.Sent (s : State) (k : Nat) : Prop := ∃ r, s.db.rows k = some r ∧ r.status = .sent

def Job.Decided (j : Job) : Prop :=
  ∀ m, j.pc = .update (.update m) → m.status = .sent ∨ m.status = .failed

def State.Decided (s : State) : Prop := ∀ j ∈ s.jobs, j.Decided

section Leads

variable {s t : State} {G G' : State → Prop}

theorem State.Leads.here (h : G s) : s.Leads G := ⟨[], s, rfl, h⟩

theorem State.Leads.mono (h : s.Leads G) (hG : ∀ t, G t → G' t) : s.Leads G' :=
  let ⟨as, s', hr, hg⟩ := h
  ⟨as, s', hr, hG s' hg⟩

theorem State.Leads.of_step {a : Action} (ha : workerOnly s a = true) (hs : s.step a = some t)
    (h : t.Leads G) : s.Leads G := by
  obtain ⟨as, s', hr, hg⟩ := h
  exact ⟨a :: as, s', by simp [State.run, ha, hs, hr], hg⟩

theorem State.Leads.of_run {as : List Action} (hr : s.run workerOnly as = some t)
    (h : t.Leads G) : s.Leads G := by
  obtain ⟨bs, s', hr', hg⟩ := h
  exact ⟨as ++ bs, s', by rw [State.run_append, hr]; exact hr', hg⟩

end Leads

section Decided

variable {s s' : State} {i : Nat} {j : Job}

theorem RepoCall.step_inl_ne_update {o : Outcome} {fresh : Nat} {now : Int} {d : Db}
    {c c' : RepoCall} (h : (c.step o fresh now d).2 = .inl c') (m : Notification) :
    c' ≠ .update m := by
  rcases RepoCall.step_inl o c h with ⟨_, -, rfl⟩ | ⟨_, _, -, -, rfl⟩ | ⟨_, _, -, -, rfl⟩ |
    ⟨_, _, -, -, rfl⟩ | ⟨_, _, -, -, rfl⟩ <;> simp

theorem Job.decided_of_pc {p : WorkerPc} (hp : ∀ m, p ≠ .update (.update m)) :
    ({ j with pc := p } : Job).Decided :=
  fun m e => absurd e (hp m)

theorem State.Decided.setJob (h : s.Decided) {j' : Job} (hj : j'.Decided) :
    (s.setJob i j').Decided :=
  fun x hx => (List.mem_or_eq_of_mem_set hx).elim (h x) (· ▸ hj)

theorem State.Decided.dropJob (h : s.Decided) : (s.dropJob i).Decided :=
  fun x hx => h x (List.mem_of_mem_eraseIdx hx)

theorem State.Decided.advanceJob (h : s.Decided) {o : Outcome}
    (hs : s.advanceJob i o j = some s') : s'.Decided := by
  have hkeep : ∀ {t : State} {p : WorkerPc}, t.jobs = s.jobs → (∀ m, p ≠ .update (.update m)) →
      (t.setJob i { j with pc := p }).Decided :=
    fun e hp => State.Decided.setJob (fun x hx => h x (e ▸ hx)) (Job.decided_of_pc hp)
  cases hpc : j.pc with
  | revalidate c =>
    rcases hp : s.repoStep o 0 c with ⟨s₁, r⟩
    have e : s₁.jobs = s.jobs := by rw [(State.repoStep_eq hp).1]
    rcases State.advanceJob_revalidate hpc hp hs with
      ⟨c', rfl, rfl⟩ | ⟨n, rfl, -, rfl⟩ | ⟨n, rfl, -, rfl⟩ | ⟨-, -, rfl⟩ <;>
      exact hkeep (by simpa using e) (by simp)
  | update c =>
    rcases hp : s.repoStep o 0 c with ⟨s₁, r⟩
    have e : s₁.jobs = s.jobs := by rw [(State.repoStep_eq hp).1]
    have hr : (c.step o 0 s.now s.db).2 = r := (State.repoStep_eq hp).2
    rcases State.advanceJob_update hpc hp hs with ⟨c', rfl, rfl⟩ | ⟨_, rfl, rfl⟩ | ⟨-, -, rfl⟩
    · exact hkeep e fun m he => RepoCall.step_inl_ne_update hr m (WorkerPc.update.inj he)
    all_goals exact hkeep e (by simp)
  | send => exact absurd hpc (State.advanceJob_pc hs)
  | publishRetry =>
    rcases State.advanceJob_publishRetry hpc hs with ⟨-, rfl⟩ | ⟨-, rfl⟩ <;>
      exact hkeep (by simp) (by simp)
  | ack =>
    rcases State.advanceJob_ack hpc hs with ⟨-, rfl⟩ | ⟨-, rfl⟩
    · exact h.dropJob
    · exact fun x hx => h.dropJob x (by simpa using hx)
  | ackUnchecked =>
    rcases State.advanceJob_ackUnchecked hpc hs with ⟨-, rfl⟩ | ⟨-, rfl⟩
    · exact fun x hx => h.dropJob x (by simpa using hx)
    · exact fun x hx => h.dropJob x (by simpa using hx)
  | nack =>
    rw [State.advanceJob_nack hpc hs]
    exact fun x hx => h.dropJob x (by simpa using hx)

theorem State.Decided.sendJob (h : s.Decided) {ok : Bool} (hs : s.sendJob i ok j = some s') :
    s'.Decided := by
  obtain ⟨-, ⟨-, rfl⟩ | ⟨-, -, rfl⟩ | ⟨-, -, rfl⟩⟩ := State.sendJob_cases hs
  · exact State.Decided.setJob h fun m e => by cases e; simp
  · exact State.Decided.setJob h fun m e => by cases e; simp
  · exact State.Decided.setJob h fun m e => by cases e

theorem decided_step (h : s.Decided) {a : Action} (hs : s.step a = some s') : s'.Decided := by
  have hsame : ∀ {t : State}, t.jobs = s.jobs → t.Decided := fun e x hx => h x (e ▸ hx)
  cases a with
  | create uuid req address chatID =>
    simp only [State.step] at hs
    split at hs <;> cases hs <;> exact h
  | get id | cancel id | tick δ | expire id => cases hs; exact h
  | call i o fresh =>
    obtain ⟨c, -, rfl⟩ := Option.map_eq_some'.1 hs
    exact hsame (State.advanceCall_frame c o fresh).1.2.2.1
  | deliver i =>
    obtain ⟨m, -, rfl⟩ := Option.map_eq_some'.1 hs
    intro x hx
    rcases List.mem_append.1 hx with hx | hx
    · exact h x hx
    · rw [List.mem_singleton.1 hx]; exact fun m e => by cases e
  | job i o =>
    obtain ⟨j, -, hs⟩ := Option.bind_eq_some.1 hs
    exact h.advanceJob hs
  | send i ok =>
    obtain ⟨j, -, hs⟩ := Option.bind_eq_some.1 hs
    exact h.sendJob hs
  | crashJob i =>
    obtain ⟨j, -, rfl⟩ := Option.map_eq_some'.1 hs
    exact fun x hx => h.dropJob x (by simpa using hx)
  | crashCall i =>
    obtain ⟨c, -, rfl⟩ := Option.map_eq_some'.1 hs
    exact h
  | deadLetter q =>
    obtain ⟨⟨m, rest⟩, -, rfl⟩ := Option.map_eq_some'.1 hs
    exact hsame (by cases q <;> rfl)

theorem reach_decided {P : State → Action → Bool} (h : Reach P s) : s.Decided := by
  induction h with
  | init now => exact fun _ h => by cases h
  | next _ _ hs ih => exact decided_step ih hs

end Decided

section Phases

/-! The phases of `handleMessage` for one copy, from the last to the first; each one ends in
the row of its notification written `sent`. -/

variable {t : State} {i : Nat} {j : Job}

theorem getElem?_set_of_some {α : Type} {l : List α} {x : α} (h : l[i]? = some x) (y : α) :
    (l.set i y)[i]? = some y := by
  rw [List.getElem?_set_self', h]; rfl

theorem State.repoStep_reply (s : State) (o : Outcome) (fresh : Nat) (c : RepoCall)
    {r : RepoCall ⊕ RepoReply} (h : (c.step o fresh s.now s.db).2 = r) :
    s.repoStep o fresh c = ((s.repoStep o fresh c).1, r) :=
  Prod.ext rfl (by rw [State.repoStep_snd, h])

theorem State.repoStep_rows_of_read (s : State) (o : Outcome) (fresh : Nat) (c : RepoCall)
    (hw : c.written o fresh s.now s.db = none) : (s.repoStep o fresh c).1.db.rows = s.db.rows := by
  rw [State.repoStep_fst]
  simp only [RepoCall.step_rows, hw]

theorem Table.Vouches.scheduled_of {tb : Table} {n : Notification} (hv : tb.Vouches n)
    (hk : ∃ r, tb n.id = some r ∧ r.status = .scheduled) : n.status = .scheduled := by
  by_contra hne
  obtain ⟨r, hr, hs⟩ := hv hne
  obtain ⟨r', hr', hs'⟩ := hk
  rw [hr] at hr'; cases hr'; exact hs hs'

variable {c d : RepoCall}

theorem State.step_revalidate_inl (hj : t.jobs[i]? = some j) (hpc : j.pc = .revalidate c)
    (hr : (c.step .ok 0 t.now t.db).2 = .inl d) :
    t.step (.job i .ok) = some ((t.repoStep .ok 0 c).1.setJob i { j with pc := .revalidate d }) := by
  obtain ⟨s₁, hp⟩ : ∃ s₁, t.repoStep .ok 0 c = (s₁, .inl d) := ⟨_, t.repoStep_reply .ok 0 c hr⟩
  simp only [State.step, hj, Option.some_bind, State.advanceJob, hpc, hp]

theorem State.step_revalidate_found {n : Notification} (hj : t.jobs[i]? = some j)
    (hpc : j.pc = .revalidate c) (hr : (c.step .ok 0 t.now t.db).2 = .inr (.record n))
    (hn : n.status = .scheduled) :
    t.step (.job i .ok) = some (((t.repoStep .ok 0 c).1.record (.found n)).setJob i
      { j with pc := .send }) := by
  obtain ⟨s₁, hp⟩ : ∃ s₁, t.repoStep .ok 0 c = (s₁, .inr (.record n)) :=
    ⟨_, t.repoStep_reply .ok 0 c hr⟩
  simp only [State.step, hj, Option.some_bind, State.advanceJob, hpc, hp, hn, if_true]

theorem leads_update (h : Reach anyRun t) (hj : t.jobs[i]? = some j) {m : Notification}
    (hpc : j.pc = .update (.update m)) {r : Row} (hr : t.db.rows m.id = some r) :
    t.Leads fun t' => ∃ r', t'.db.rows m.id = some r' ∧ r'.status = m.status := by
  have hid : r.id = m.id := ((reach_traced h).db.rows _ r hr).1
  obtain ⟨r', hw, hst, hid'⟩ : ∃ r', (RepoCall.update m).written .ok 0 t.now t.db = some r' ∧
      r'.status = m.status ∧ r'.id = m.id :=
    ⟨{ r with status := m.status, attempts := int16 m.attempts,
               sentAt := m.sentAt.map timestamptz, updatedAt := timestamptz t.now },
      by simp [RepoCall.written, updateNotificationStatus, toDBUpdateParams, hr], rfl, hid⟩
  rcases hp : t.repoStep .ok 0 (.update m) with ⟨s₁, rr⟩
  have hrows : s₁.db.rows m.id = some r' := by
    rw [(State.repoStep_eq hp).1]
    simp only [RepoCall.step_rows, hw, ← hid']
    exact Table.put_self _ r'
  obtain ⟨t', hs⟩ : ∃ t', t.advanceJob i .ok j = some t' := by
    simp only [State.advanceJob, hpc, hp]
    split <;> exact ⟨_, rfl⟩
  have hdb : t'.db = s₁.db := by
    rcases State.advanceJob_update hpc hp hs with ⟨_, -, rfl⟩ | ⟨_, -, rfl⟩ | ⟨-, -, rfl⟩ <;> rfl
  exact .of_step (a := .job i .ok) rfl (by simp [State.step, hj, hs]) (.here ⟨r', hdb ▸ hrows, hst⟩)

theorem leads_send (h : Reach anyRun t) (hj : t.jobs[i]? = some j) (hpc : j.pc = .send)
    (hk : ∃ r, t.db.rows j.notification.id = some r) : t.Leads (·.Sent j.notification.id) := by
  let n' : Notification := { j.notification with status := .sent, sentAt := some t.now }
  have hs : t.step (.send i true) = some ((t.record (.send j.notification t.now true)).setJob i
      { j with notification := n', pc := .update (.update n') }) := by
    simp [State.step, hj, State.sendJob, hpc, n']
  obtain ⟨r, hr⟩ := hk
  exact .of_step (a := .send i true) rfl hs
    (leads_update (m := n') (h.next rfl hs) (getElem?_set_of_some hj _) rfl hr)

theorem leads_fill (h : Reach anyRun t) (hj : t.jobs[i]? = some j) {m : Notification}
    (hpc : j.pc = .revalidate (.getByIDFill m))
    (hk : ∃ r, t.db.rows j.notification.id = some r ∧ r.status = .scheduled) :
    t.Leads (·.Sent j.notification.id) := by
  have hsh := ((reach_sound h).2.jobs j (List.getElem?_mem hj)).2
  rw [hpc] at hsh
  have hs := State.step_revalidate_found hj hpc rfl (hsh.2.scheduled_of (hsh.1 ▸ hk))
  exact .of_step (a := .job i .ok) rfl hs (leads_send (j := { j with pc := .send }) (h.next rfl hs)
    (getElem?_set_of_some hj _) rfl
    (by simp only [State.setJob_db, State.record_db, t.repoStep_rows_of_read .ok 0 (.getByIDFill m) rfl]
        exact hk.imp fun _ => And.left))

theorem leads_primary (h : Reach anyRun t) (hj : t.jobs[i]? = some j) {k : Nat}
    (hpc : j.pc = .revalidate (.getByIDPrimary k))
    (hk : ∃ r, t.db.rows j.notification.id = some r ∧ r.status = .scheduled) :
    t.Leads (·.Sent j.notification.id) := by
  have hsh := ((reach_sound h).2.jobs j (List.getElem?_mem hj)).2
  rw [hpc] at hsh
  subst hsh
  obtain ⟨r, hr, hsched⟩ := hk
  have hs := State.step_revalidate_inl hj hpc (d := .getByIDFill (toDomainModel r))
    (by simp [RepoCall.step, Outcome.read, hr])
  exact .of_step (a := .job i .ok) rfl hs
    (leads_fill (j := { j with pc := .revalidate (.getByIDFill (toDomainModel r)) }) (h.next rfl hs)
      (getElem?_set_of_some hj _) rfl
      ⟨r, by simp only [State.setJob_db, t.repoStep_rows_of_read .ok 0 (.getByIDPrimary _) rfl, hr], hsched⟩)

theorem leads_byID (h : Reach anyRun t) (hj : t.jobs[i]? = some j) {k : Nat}
    (hpc : j.pc = .revalidate (.getByID k))
    (hk : ∃ r, t.db.rows j.notification.id = some r ∧ r.status = .scheduled) :
    t.Leads (·.Sent j.notification.id) := by
  have hsh := ((reach_sound h).2.jobs j (List.getElem?_mem hj)).2
  rw [hpc] at hsh
  subst hsh
  have hrows := t.repoStep_rows_of_read .ok 0 (.getByID j.notification.id) rfl
  cases hc : t.db.cache j.notification.id with
  | some n =>
    have hnid := ((reach_traced h).db.cache _ n hc).1
    have hs := State.step_revalidate_found hj hpc (by simp [RepoCall.step, Outcome.read, hc])
      (((reach_sound h).2.cache _ n hc).scheduled_of (hnid ▸ hk))
    exact .of_step (a := .job i .ok) rfl hs (leads_send (j := { j with pc := .send })
      (h.next rfl hs) (getElem?_set_of_some hj _) rfl
      (by simp only [State.setJob_db, State.record_db, hrows]; exact hk.imp fun _ => And.left))
  | none =>
    have hs := State.step_revalidate_inl hj hpc (d := .getByIDPrimary j.notification.id)
      (by simp [RepoCall.step, Outcome.read, hc])
    exact .of_step (a := .job i .ok) rfl hs
      (leads_primary (j := { j with pc := .revalidate (.getByIDPrimary j.notification.id) })
        (h.next rfl hs) (getElem?_set_of_some hj _) rfl
        (by simp only [State.setJob_db, hrows]; exact hk))

theorem leads_process (h : Reach anyRun t) {m : Msg} (hm : m ∈ t.process)
    (hk : ∃ r, t.db.rows m.body.id = some r ∧ r.status = .scheduled) :
    t.Leads (·.Sent m.body.id) := by
  obtain ⟨p, hp⟩ := List.mem_iff_getElem?.1 hm
  have hs : t.step (.deliver p) = some { t with process := t.process.eraseIdx p,
                                                jobs := t.jobs ++ [⟨m, m.body, .revalidate (.getByID m.body.id)⟩] } := by
    simp [State.step, hp]
  exact .of_step (a := .deliver p) rfl hs (leads_byID (j := ⟨m, m.body, .revalidate (.getByID m.body.id)⟩)
    (h.next rfl hs) (List.getElem?_concat_length _ _) rfl hk)

theorem exists_due_le (now : Int) (l : List Msg) : ∃ δ : Nat, ∀ m ∈ l, m.due ≤ now + δ := by
  induction l with
  | nil => exact ⟨0, by simp⟩
  | cons m rest ih =>
    obtain ⟨δ, hδ⟩ := ih
    refine ⟨max δ (m.due - now).toNat, fun x hx => ?_⟩
    rcases List.mem_cons.1 hx with rfl | hx
    · omega
    · have := hδ x hx; omega

theorem drain {q : DelayQueue} {l : List Msg} :
    ∀ {t : State}, t.queue q = l → (∀ m ∈ l, m.due ≤ t.now) →
      ∃ t', t.run workerOnly (List.replicate l.length (.deadLetter q)) = some t' ∧
        t'.process = t.process ++ l ∧ t'.db = t.db := by
  induction l with
  | nil => exact fun _ _ => ⟨_, rfl, by simp, rfl⟩
  | cons m rest ih =>
    intro t hq hdue
    have hd : deadLetter t.now (t.queue q) = some (m, rest) := by
      simp [hq, deadLetter, hdue m (List.mem_cons_self _ _)]
    have hs : t.step (.deadLetter q) = some ((t.setQueue q rest).requeue m) := by
      simp [State.step, hd]
    obtain ⟨t', hr, hp, hdb⟩ := ih (t := (t.setQueue q rest).requeue m) (by cases q <;> rfl)
      (fun x hx => by cases q <;> exact hdue x (List.mem_cons_of_mem _ hx))
    refine ⟨t', ?_, ?_, ?_⟩
    · simp only [List.length_cons, List.replicate_succ, State.run, workerOnly, if_true, hs,
        Option.some_bind, hr]
    · rw [hp]; cases q <;> simp [State.setQueue]
    · rw [hdb]; cases q <;> rfl

theorem leads_queued (h : Reach anyRun t) {q : DelayQueue} {m : Msg} (hm : m ∈ t.queue q)
    (hk : ∃ r, t.db.rows m.body.id = some r ∧ r.status = .scheduled) :
    t.Leads (·.Sent m.body.id) := by
  obtain ⟨δ, hδ⟩ := exists_due_le t.now (t.queue q)
  have hs : t.step (.tick δ) = some { t with now := t.now + δ } := rfl
  obtain ⟨t₂, hr, hproc, hdb⟩ := drain (q := q) (t := { t with now := t.now + δ }) (by cases q <;> rfl) hδ
  have h₂ : Reach anyRun t₂ := reach_run (h.next rfl hs) (State.run_mono (fun _ _ _ => rfl) hr)
  exact .of_step (a := .tick δ) rfl hs (.of_run hr
    (leads_process h₂ (by rw [hproc]; exact List.mem_append_right _ hm) (by rw [hdb]; exact hk)))

theorem leads_publishRetry (h : Reach anyRun t) (hj : t.jobs[i]? = some j) (hpc : j.pc = .publishRetry)
    (hk : ∃ r, t.db.rows j.notification.id = some r ∧ r.status = .scheduled) :
    t.Leads (·.Sent j.notification.id) := by
  let d := calculateExponentialBackoff j.notification.attempts
  have hsh := ((reach_sound h).2.jobs j (List.getElem?_mem hj)).2
  rw [hpc] at hsh
  have hacc : (publishRetryMsg t.now j.notification d).accepted :=
    publishRetryMsg_accepted t.now j.notification hsh
  have hs : t.step (.job i .ok) = some
      (((t.enqueue .ok .retry (publishRetryMsg t.now j.notification d)).record
        (.publishRetry j.notification d)).setJob i { j with pc := .ack }) := by
    simp only [State.step, hj, Option.some_bind, State.advanceJob, hpc]
  exact .of_step (a := .job i .ok) rfl hs
    (leads_queued (q := .retry) (m := publishRetryMsg t.now j.notification d) (h.next rfl hs)
      (by simpa [State.queue] using State.mem_enqueue_self (s := t) .retry hacc)
      (by simpa using hk))

theorem leads_nack (h : Reach anyRun t) (hj : t.jobs[i]? = some j) (hpc : j.pc = .nack)
    (hk : ∃ r, t.db.rows j.msg.body.id = some r ∧ r.status = .scheduled) :
    t.Leads (·.Sent j.msg.body.id) := by
  have hs : t.step (.job i .ok) = some ((t.dropJob i).requeue j.msg) := by
    simp only [State.step, hj, Option.some_bind, State.advanceJob, hpc]
  exact .of_step (a := .job i .ok) rfl hs (leads_process (h.next rfl hs) (by simp) hk)

theorem leads_job (h : Reach anyRun t) (hj : t.jobs[i]? = some j) (hne : ∀ c, j.pc ≠ .update c)
    (hack : j.pc ≠ .ack) (hunc : j.pc ≠ .ackUnchecked)
    (hk : ∃ r, t.db.rows j.notification.id = some r ∧ r.status = .scheduled) :
    t.Leads (·.Sent j.notification.id) := by
  obtain ⟨hid, hsh⟩ := (reach_sound h).2.jobs j (List.getElem?_mem hj)
  cases hpc : j.pc with
  | revalidate c =>
    rw [hpc] at hsh
    cases c with
    | getByID _ => exact leads_byID h hj hpc hk
    | getByIDPrimary _ => exact leads_primary h hj hpc hk
    | getByIDFill _ => exact leads_fill h hj hpc hk
    | _ => exact absurd hsh id
  | send => exact leads_send h hj hpc (hk.imp fun _ => And.left)
  | update c => exact absurd hpc (hne c)
  | publishRetry => exact leads_publishRetry h hj hpc hk
  | ack => exact absurd hpc hack
  | ackUnchecked => exact absurd hpc hunc
  | nack => rw [hid]; exact leads_nack h hj hpc (hid ▸ hk)

end Phases

def State.pendingCheck (s : State) (k : Nat) : Bool :=
  (match s.db.rows k with
    | some r => r.status == .scheduled
    | none => false) &&
    s.log.any (fun e => match e with
      | .publish n => n.id == k
      | _ => false) &&
    decide (Event.ackedUnchecked k ∉ s.log)

theorem State.pendingCheck_iff {s : State} {k : Nat} : s.pendingCheck k = true ↔ s.Pending k := by
  have hpub : (s.log.any fun e => match e with
      | .publish n => n.id == k
      | _ => false) = true ↔ ∃ n, Event.publish n ∈ s.log ∧ n.id = k := by
    rw [List.any_eq_true]
    constructor
    · rintro ⟨e, he, hk⟩
      cases e <;> simp only [beq_iff_eq, reduceCtorEq] at hk
      exact ⟨_, he, hk⟩
    · rintro ⟨n, hn, rfl⟩
      exact ⟨_, hn, by simp⟩
  unfold State.pendingCheck State.Pending
  rw [Bool.and_eq_true, Bool.and_eq_true, hpub, decide_eq_true_iff]
  cases s.db.rows k <;> simp [and_assoc]

instance (s : State) (k : Nat) : Decidable (s.Pending k) :=
  decidable_of_iff _ State.pendingCheck_iff

private def waitingRelease : List Action :=
  [.create 0 ⟨"a@b.co", "email", "s", "", 1500000, none⟩ (.ok ()) (.error ""), .call 0 .ok 1,
   .call 0 .ok 0, .call 0 .ok 0]

end DelayedNotifier
