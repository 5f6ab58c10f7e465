import DelayedNotifier.Answers
import DelayedNotifier.Progress
import DelayedNotifier.RepoRefinement

/-!
# A row reads `sent` only after a `Send` of it returned nil

Three statements write a row: the insert of `Save`, which writes the `scheduled` record
validation built; `CancelNotification`, which writes `cancelled`; and the worker's
`UpdateNotificationStatus`, which writes `sent` only after the transport's `Send` returned nil,
with `sent_at` set to that instant. So every `sent` the table has ever held is attested by a
successful `Send` of that notification at the instant its `sent_at` holds, truncated as the
column stores it (`sent_rows_were_sent`), under any interleaving and any failure. The writes
of each thread are read off `State.repoStep` once (`State.advanceCall_write`,
`State.advanceJob_write`). The worker's `UPDATE` does not check the status it overwrites: a
worker whose revalidation is served a stale cache entry writes `sent` a second time
(`update_sent_twice`).
-/

namespace DelayedNotifier

def SentOk (l : List Event) (k : Nat) (t : Int) : Prop :=
  ∃ n, Event.send n t true ∈ l ∧ n.id = k

theorem SentOk.mono {l l' : List Event} {k : Nat} {t : Int} (h : SentOk l k t) (hl : l ⊆ l') :
    SentOk l' k t :=
  let ⟨n, hn, e⟩ := h
  ⟨n, hl hn, e⟩

/-- Every `sent` written to the table, and every `sent` a worker is about to write, follows a
`Send` of that notification that returned nil, at the instant its `sent_at` holds. -/
structure State.Attested (s : State) : Prop where
  writes : ∀ r, Event.write r ∈ s.log → r.status = .sent →
    ∃ t, SentOk s.log r.id t ∧ r.sentAt = some (timestamptz t)
  jobs : ∀ j ∈ s.jobs, ∀ m, j.pc = .update (.update m) → m.status = .sent →
    ∃ t, SentOk s.log m.id t ∧ m.sentAt = some t

section Writes

variable {s s' : State} {i : Nat} {o : Outcome} {fresh : Nat} {r : Row}

theorem RepoCall.written_status {now : Int} {d : Db} {c : RepoCall}
    (hk : ∀ k r, d.rows k = some r → r.id = k) (hw : c.written o fresh now d = some r) :
    (∃ n, c = .save n ∧ r.status = n.status) ∨
    (∃ m, c = .update m ∧ r.id = m.id ∧ r.status = m.status ∧
      r.sentAt = m.sentAt.map timestamptz) ∨
    (∃ id, c = .delete id ∧ r.status = .cancelled) := by
  rcases RepoCall.written_cases hw with ⟨n, p, rfl, hp, hcr⟩ | ⟨m, rfl, hu⟩ | ⟨id, rfl, hcn⟩
  · obtain ⟨-, -, -, -, hst, -⟩ := createNotification_ok hcr
    exact .inl ⟨n, rfl, hst.trans (toDBCreateParams_status hp)⟩
  · obtain ⟨r₀, hr₀, rfl⟩ := updateNotificationStatus_some hu
    exact .inr (.inl ⟨m, rfl, hk _ r₀ hr₀, rfl, rfl⟩)
  · obtain ⟨r₀, -, rfl⟩ := cancelNotification_some hcn
    exact .inr (.inr ⟨id, rfl, rfl⟩)

theorem State.repoStep_log (s : State) (o : Outcome) (fresh : Nat) (c : RepoCall) :
    (s.repoStep o fresh c).1.log = s.log ++ (c.written o fresh s.now s.db).toList.map .write := by
  rw [State.repoStep_fst]

theorem State.repoStep_write {c₀ : RepoCall} {s₁ : State} {rr : RepoCall ⊕ RepoReply}
    (hp : s.repoStep o fresh c₀ = (s₁, rr)) {l : List Event} (hl : ∀ r, .write r ∉ l)
    (hr : Event.write r ∈ s₁.log ++ l) :
    Event.write r ∈ s.log ∨ c₀.written o fresh s.now s.db = some r := by
  rw [show s₁ = (s.repoStep o fresh c₀).1 by rw [hp]] at hr
  simp only [State.repoStep_log, List.mem_append, List.mem_map, Option.mem_toList,
    Event.write.injEq] at hr
  rcases hr with (hr | ⟨r', hw, rfl⟩) | hr
  · exact .inl hr
  · exact .inr hw
  · exact absurd hr (hl r)

theorem State.advanceCall_write {c : Call} (hr : Event.write r ∈ (s.advanceCall i o fresh c).log) :
    Event.write r ∈ s.log ∨ ∃ c₀, c.repoCall = some c₀ ∧ c₀.written o fresh s.now s.db = some r := by
  have hrepo : ∀ {c₀ : RepoCall} {s₁ : State} {rr : RepoCall ⊕ RepoReply}, c.repoCall = some c₀ →
      s.repoStep o fresh c₀ = (s₁, rr) → ∀ (l : List Event), (∀ r, .write r ∉ l) →
      Event.write r ∈ s₁.log ++ l →
        Event.write r ∈ s.log ∨ ∃ c₀, c.repoCall = some c₀ ∧ c₀.written o fresh s.now s.db = some r :=
    fun hc₀ hp l hl hr => (State.repoStep_write hp hl hr).imp_right fun hw => ⟨_, hc₀, hw⟩
  cases c with
  | publish n =>
    rw [State.advanceCall_publish] at hr
    have hw : Event.write r ∈ (s.publishWait o (publishMsg s.now n)).log → Event.write r ∈ s.log :=
      fun h => (State.mem_publishWait_log h).resolve_right (by simp)
    split_ifs at hr <;> simp only [State.dropCall_log, State.record_log, List.mem_append,
      List.mem_singleton, reduceCtorEq, or_false] at hr
    · exact .inl hr
    · exact .inl (hw hr)
    · exact .inl (hw hr)
  | create c =>
    rcases hp : s.repoStep o fresh c with ⟨s₁, rr⟩
    rcases State.advanceCall_create (i := i) hp with ⟨_, -, he⟩ | ⟨_, -, he⟩ | ⟨-, -, he⟩ <;>
      rw [he] at hr <;> exact hrepo rfl hp [] (by simp) (by simpa using hr)
  | get c =>
    rcases hp : s.repoStep o fresh c with ⟨s₁, rr⟩
    rcases State.advanceCall_get (i := i) hp with ⟨_, -, he⟩ | ⟨n, -, he⟩ | ⟨-, -, he⟩ <;>
      rw [he] at hr
    · exact hrepo rfl hp [] (by simp) (by simpa using hr)
    · exact hrepo rfl hp [.found n] (by simp) (by simpa using hr)
    · exact hrepo rfl hp [] (by simp) (by simpa using hr)
  | cancelLookup id c =>
    rcases hp : s.repoStep o fresh c with ⟨s₁, rr⟩
    rcases State.advanceCall_cancelLookup (i := i) hp with
      ⟨_, -, he⟩ | ⟨n, -, -, he⟩ | ⟨n, -, -, he⟩ | ⟨-, -, he⟩ <;> rw [he] at hr
    · exact hrepo rfl hp [] (by simp) (by simpa using hr)
    · exact hrepo rfl hp [.found n] (by simp) (by simpa using hr)
    · exact hrepo rfl hp [.found n] (by simp) (by simpa using hr)
    · exact hrepo rfl hp [] (by simp) (by simpa using hr)
  | cancelDelete id c =>
    rcases hp : s.repoStep o fresh c with ⟨s₁, rr⟩
    rcases State.advanceCall_cancelDelete (i := i) hp with ⟨_, -, he⟩ | ⟨-, he⟩ | ⟨-, -, he⟩ <;>
      rw [he] at hr
    · exact hrepo rfl hp [] (by simp) (by simpa using hr)
    · exact hrepo rfl hp [.cancel id] (by simp) (by simpa using hr)
    · exact hrepo rfl hp [] (by simp) (by simpa using hr)

theorem State.advanceJob_write {j : Job} (hs : s.advanceJob i o j = some s')
    (hr : Event.write r ∈ s'.log) :
    Event.write r ∈ s.log ∨ ∃ c₀, (j.pc = .revalidate c₀ ∨ j.pc = .update c₀) ∧
      c₀.written o 0 s.now s.db = some r := by
  have hrepo : ∀ {c₀ : RepoCall} {s₁ : State} {rr : RepoCall ⊕ RepoReply},
      (j.pc = .revalidate c₀ ∨ j.pc = .update c₀) → s.repoStep o 0 c₀ = (s₁, rr) →
      ∀ (l : List Event), (∀ r, .write r ∉ l) → Event.write r ∈ s₁.log ++ l →
        Event.write r ∈ s.log ∨ ∃ c₀, (j.pc = .revalidate c₀ ∨ j.pc = .update c₀) ∧
          c₀.written o 0 s.now s.db = some r :=
    fun hc₀ hp l hl hr => (State.repoStep_write hp hl hr).imp_right fun hw => ⟨_, hc₀, hw⟩
  cases hpc : j.pc with
  | revalidate c =>
    rw [← hpc]
    rcases hp : s.repoStep o 0 c with ⟨s₁, rr⟩
    rcases State.advanceJob_revalidate hpc hp hs with
      ⟨_, -, rfl⟩ | ⟨n, -, -, rfl⟩ | ⟨n, -, -, rfl⟩ | ⟨-, -, rfl⟩
    · exact hrepo (.inl hpc) hp [] (by simp) (by simpa using hr)
    · exact hrepo (.inl hpc) hp [.found n] (by simp) (by simpa using hr)
    · exact hrepo (.inl hpc) hp [.found n, .skip j.notification.id (some n.status)] (by simp)
        (by simpa using hr)
    · exact hrepo (.inl hpc) hp [.skip j.notification.id none] (by simp) (by simpa using hr)
  | update c =>
    rw [← hpc]
    rcases hp : s.repoStep o 0 c with ⟨s₁, rr⟩
    rcases State.advanceJob_update hpc hp hs with ⟨_, -, rfl⟩ | ⟨_, -, rfl⟩ | ⟨-, -, rfl⟩ <;>
      exact hrepo (.inr hpc) hp [] (by simp) (by simpa using hr)
  | send => exact absurd hpc (State.advanceJob_pc hs)
  | publishRetry =>
    rcases State.advanceJob_publishRetry hpc hs with ⟨-, rfl⟩ | ⟨-, rfl⟩ <;> simp at hr <;>
      exact .inl hr
  | ack =>
    rcases State.advanceJob_ack hpc hs with ⟨-, rfl⟩ | ⟨-, rfl⟩ <;> exact .inl (by simpa using hr)
  | ackUnchecked =>
    rcases State.advanceJob_ackUnchecked hpc hs with ⟨-, rfl⟩ | ⟨-, rfl⟩ <;>
      exact .inl (by simpa using hr)
  | nack =>
    rw [State.advanceJob_nack hpc hs] at hr
    exact .inl (by simpa using hr)

theorem State.advanceJob_jobs {j : Job} (hs : s.advanceJob i o j = some s') :
    ∀ j' ∈ s'.jobs, j' ∈ s.jobs ∨ ∀ m, j'.pc ≠ .update (.update m) := by
  have hset : ∀ {t : State} {p : WorkerPc}, t.jobs = s.jobs → (∀ m, p ≠ .update (.update m)) →
      ∀ j' ∈ (t.setJob i { j with pc := p }).jobs, j' ∈ s.jobs ∨ ∀ m, j'.pc ≠ .update (.update m) :=
    fun e hp j' hj' => (List.mem_or_eq_of_mem_set hj').elim (fun h => .inl (e ▸ h))
      fun e' => .inr (e' ▸ hp)
  have hdrop : ∀ j' ∈ (s.dropJob i).jobs, j' ∈ s.jobs ∨ ∀ m, j'.pc ≠ .update (.update m) :=
    fun j' hj' => .inl (List.mem_of_mem_eraseIdx hj')
  cases hpc : j.pc with
  | revalidate c =>
    rcases hp : s.repoStep o 0 c with ⟨s₁, r⟩
    obtain ⟨rfl, -⟩ := State.repoStep_eq hp
    rcases State.advanceJob_revalidate hpc hp hs with
      ⟨c', rfl, rfl⟩ | ⟨n, rfl, -, rfl⟩ | ⟨n, rfl, -, rfl⟩ | ⟨-, -, rfl⟩ <;> exact hset rfl (by simp)
  | update c =>
    rcases hp : s.repoStep o 0 c with ⟨s₁, r⟩
    obtain ⟨rfl, hr⟩ := State.repoStep_eq hp
    rcases State.advanceJob_update hpc hp hs with ⟨c', rfl, rfl⟩ | ⟨_, rfl, rfl⟩ | ⟨-, -, rfl⟩
    · exact hset rfl fun m he => RepoCall.step_inl_ne_update hr m (WorkerPc.update.inj he)
    all_goals exact hset rfl (by simp)
  | send => exact absurd hpc (State.advanceJob_pc hs)
  | publishRetry =>
    rcases State.advanceJob_publishRetry hpc hs with ⟨-, rfl⟩ | ⟨-, rfl⟩ <;>
      exact hset (by simp) (by simp)
  | ack =>
    rcases State.advanceJob_ack hpc hs with ⟨-, rfl⟩ | ⟨-, rfl⟩
    · exact hdrop
    · exact fun j' hj' => hdrop j' (by simpa using hj')
  | ackUnchecked =>
    rcases State.advanceJob_ackUnchecked hpc hs with ⟨-, rfl⟩ | ⟨-, rfl⟩ <;>
      exact fun j' hj' => hdrop j' (by simpa using hj')
  | nack =>
    rw [State.advanceJob_nack hpc hs]
    exact fun j' hj' => hdrop j' (by simpa using hj')

end Writes

section Attested

variable {s s' : State} {i : Nat} {o : Outcome} {fresh : Nat}

theorem State.Attested.of_step (h : s.Attested) (hl : s.log ⊆ s'.log)
    (hw : ∀ r, Event.write r ∈ s'.log → Event.write r ∉ s.log → r.status = .sent →
      ∃ t, SentOk s'.log r.id t ∧ r.sentAt = some (timestamptz t))
    (hj : ∀ j ∈ s'.jobs, j ∉ s.jobs → ∀ m, j.pc = .update (.update m) → m.status = .sent →
      ∃ t, SentOk s'.log m.id t ∧ m.sentAt = some t) : s'.Attested := by
  refine ⟨fun r hr hs => ?_, fun j hj' m hpc hm => ?_⟩
  · by_cases hold : Event.write r ∈ s.log
    · obtain ⟨t, ht, e⟩ := h.writes r hold hs
      exact ⟨t, ht.mono hl, e⟩
    · exact hw r hr hold hs
  · by_cases hold : j ∈ s.jobs
    · obtain ⟨t, ht, e⟩ := h.jobs j hold m hpc hm
      exact ⟨t, ht.mono hl, e⟩
    · exact hj j hj' hold m hpc hm

theorem State.Attested.quiet (h : s.Attested) (hl : s.log ⊆ s'.log)
    (hw : ∀ r, Event.write r ∈ s'.log → Event.write r ∈ s.log)
    (hj : ∀ j ∈ s'.jobs, j ∈ s.jobs ∨ ∀ m, j.pc ≠ .update (.update m)) : s'.Attested :=
  h.of_step hl (fun r hr hold => absurd (hw r hr) hold)
    fun j hj' hold m hpc => ((hj j hj').resolve_left hold m hpc).elim

theorem Call.written_ne_sent {c : Call} (hsch : c.Scheduled) (haim : c.Aimed) {c₀ : RepoCall}
    (hc₀ : c.repoCall = some c₀) {now : Int} {d : Db} (hk : ∀ k r, d.rows k = some r → r.id = k)
    {r : Row} (hw : c₀.written o fresh now d = some r) : r.status ≠ .sent := by
  rcases RepoCall.written_status hk hw with ⟨n, rfl, hst⟩ | ⟨m, rfl, -⟩ | ⟨id, rfl, hst⟩
  · cases c <;> simp only [Call.repoCall, Option.some.injEq, reduceCtorEq] at hc₀ <;> subst hc₀ <;>
      simp [Call.Aimed] at haim
    rw [hst, show n.status = .scheduled from hsch]
    decide
  · cases c <;> simp only [Call.repoCall, Option.some.injEq, reduceCtorEq] at hc₀ <;> subst hc₀ <;>
      simp [Call.Aimed, Call.Scheduled] at haim hsch
  · rw [hst]
    decide

theorem State.Attested.advanceCall (h : s.Attested) (hk : ∀ k r, s.db.rows k = some r → r.id = k)
    {c : Call} (hsch : c.Scheduled) (haim : c.Aimed) :
    (s.advanceCall i o fresh c).Attested := by
  obtain ⟨-, -, hjobs, -, l, hlog, -⟩ := (State.advanceCall_frame (s := s) (i := i) c o fresh).1
  refine h.of_step (by rw [hlog]; exact List.subset_append_left _ _) (fun r hr hold hs => ?_)
    fun j hj hold => absurd (hjobs ▸ hj) hold
  rcases State.advanceCall_write hr with hr | ⟨c₀, hc₀, hw⟩
  · exact absurd hr hold
  · exact absurd hs (Call.written_ne_sent hsch haim hc₀ hk hw)

theorem State.Attested.advanceJob (h : s.Attested) (hk : ∀ k r, s.db.rows k = some r → r.id = k)
    {j : Job} (hj : j ∈ s.jobs) (hsh : j.pc.Shaped s.db.rows j.notification)
    (hs : s.advanceJob i o j = some s') (hl : s.log ⊆ s'.log) : s'.Attested := by
  refine h.of_step hl (fun r hr hold hst => ?_) fun j' hj' hold => ?_
  · rcases State.advanceJob_write hs hr with hr | ⟨c₀, hpc, hw⟩
    · exact absurd hr hold
    rcases RepoCall.written_status hk hw with ⟨_, rfl, -⟩ | ⟨m, rfl, hid, hst', hsent⟩ | ⟨_, rfl, -⟩
    · rcases hpc with hpc | hpc <;> rw [hpc] at hsh <;> exact absurd hsh id
    · rcases hpc with hpc | hpc
      · rw [hpc] at hsh
        exact absurd hsh id
      obtain ⟨t, ht, hm⟩ := h.jobs j hj m hpc (hst' ▸ hst)
      exact ⟨t, by rw [hid]; exact ht.mono hl, by rw [hsent, hm]; rfl⟩
    · rcases hpc with hpc | hpc <;> rw [hpc] at hsh <;> exact absurd hsh id
  · rcases State.advanceJob_jobs hs j' hj' with h' | h'
    · exact absurd h' hold
    · exact fun m hpc => (h' m hpc).elim

theorem State.Attested.sendJob (h : s.Attested) {j : Job} {ok : Bool}
    (hs : s.sendJob i ok j = some s') : s'.Attested := by
  let t := s.record (.send j.notification s.now ok)
  have hset : ∀ j' : Job, (∀ m, j'.pc = .update (.update m) → m.status = .sent →
      ∃ t', SentOk t.log m.id t' ∧ m.sentAt = some t') → (t.setJob i j').Attested := fun j' hj' =>
    h.of_step (List.subset_append_left _ _) (fun r hr hold => absurd (by simpa [t] using hr) hold)
      fun j₀ hj₀ hold => (List.mem_or_eq_of_mem_set hj₀).elim
        (fun h₀ => absurd (by simpa [t] using h₀) hold) (· ▸ hj')
  obtain ⟨-, ⟨rfl, rfl⟩ | ⟨-, -, rfl⟩ | ⟨-, -, rfl⟩⟩ := State.sendJob_cases hs
  · exact hset _ fun m hpc _ => by
      cases hpc
      exact ⟨s.now, ⟨j.notification, by simp [t], rfl⟩, rfl⟩
  · exact hset _ fun m hpc hm => by cases hpc; cases hm
  · exact hset _ fun m hpc => by cases hpc

theorem attested_step (ht : s.Traced) (hv : s.Vouched) (hsch : ∀ c ∈ s.calls, c.Scheduled)
    (haim : ∀ c ∈ s.calls, c.Aimed) (h : s.Attested) {a : Action} (hs : s.step a = some s') :
    s'.Attested := by
  have hl : s.log ⊆ s'.log := (State.step_log hs).1.subset
  have hk : ∀ k r, s.db.rows k = some r → r.id = k := fun k r hr => (ht.db.rows k r hr).1
  have hsame : s'.jobs = s.jobs → s'.log = s.log → s'.Attested := fun hj hlog =>
    h.quiet hl (fun _ hr => hlog ▸ hr) fun j hj' => .inl (hj ▸ hj')
  cases a with
  | create uuid req address chatID =>
    simp only [State.step] at hs
    split at hs <;> cases hs <;> exact hsame rfl rfl
  | get id | cancel id | tick δ | expire id => cases hs; exact hsame rfl rfl
  | call i o fresh =>
    obtain ⟨c, hc, rfl⟩ := Option.map_eq_some'.1 hs
    have hm := List.getElem?_mem hc
    exact h.advanceCall hk (hsch c hm) (haim c hm)
  | deliver i =>
    obtain ⟨m, -, rfl⟩ := Option.map_eq_some'.1 hs
    refine h.quiet hl (fun _ hr => hr) fun j hj => (List.mem_append.1 hj).imp id fun e => ?_
    rw [List.mem_singleton.1 e]
    exact fun m hpc => by cases hpc
  | job i o =>
    obtain ⟨j, hj, hs'⟩ := Option.bind_eq_some.1 hs
    have hm := List.getElem?_mem hj
    exact h.advanceJob hk hm (hv.jobs j hm).2 hs' hl
  | send i ok =>
    obtain ⟨j, -, hs'⟩ := Option.bind_eq_some.1 hs
    exact h.sendJob hs'
  | crashJob i =>
    obtain ⟨j, -, rfl⟩ := Option.map_eq_some'.1 hs
    exact h.quiet hl (fun _ hr => hr) fun j hj => .inl (List.mem_of_mem_eraseIdx hj)
  | crashCall i =>
    obtain ⟨c, -, rfl⟩ := Option.map_eq_some'.1 hs
    exact hsame rfl rfl
  | deadLetter q =>
    obtain ⟨⟨m, rest⟩, -, rfl⟩ := Option.map_eq_some'.1 hs
    cases q <;> exact hsame rfl rfl

theorem reach_attested {P : State → Action → Bool} (h : Reach P s) : s.Attested := by
  induction h with
  | init now => exact ⟨fun _ h => (by cases h), fun _ h => (by cases h)⟩
  | next hr _ hs ih =>
    obtain ⟨ht, hv⟩ := reach_sound hr
    exact attested_step ht hv (reach_scheduled hr) (reach_aimed hr) ih hs

end Attested

/-- Under any interleaving and any failure of any cache, store, broker or transport operation,
a row reads `sent` only if a `Send` of that notification returned nil, and its `sent_at` is the
instant of that `Send`, truncated as the column stores it. -/
theorem sent_rows_were_sent {P : State → Action → Bool} {s : State} (h : Reach P s) {k : Nat}
    {r : Row} (hr : s.db.rows k = some r) (hs : r.status = .sent) :
    ∃ n t, Event.send n t true ∈ s.log ∧ n.id = k ∧ r.sentAt = some (timestamptz t) := by
  obtain ⟨t, ⟨n, hn, hid⟩, hat⟩ := (reach_attested h).writes r ((reach_recorded h).rows k r hr) hs
  exact ⟨n, t, hn, hid.trans ((reach_traced h).db.rows k r hr).1, hat⟩

private def createdSentMarked : List Action :=
  [.create 0 ⟨"a@b.co", "email", "s", "", 0, none⟩ (.ok ()) (.error ""), .call 0 .ok 1,
   .call 0 .ok 0, .call 0 .ok 0, .deadLetter .wait, .deliver 0, .job 0 .ok, .send 0 true,
   .job 0 .ok]

set_option maxRecDepth 20000 in
theorem sent_rows_were_sent_after_delivery :
    ∃ s r, Reach anyRun s ∧ s.db.rows 1 = some r ∧ r.status = .sent ∧
      ∃ n t, Event.send n t true ∈ s.log ∧ n.id = 1 ∧ r.sentAt = some (timestamptz t) := by
  have h : ((State.init 0).run anyRun createdSentMarked).map
      (fun s => (s.db.rows 1).map (·.status)) = some (some .sent) := by
    decide
  cases hrun : (State.init 0).run anyRun createdSentMarked with
  | none => simp [hrun] at h
  | some s =>
    simp only [hrun, Option.map_some', Option.some.injEq] at h
    cases hr : s.db.rows 1 with
    | none => simp [hr] at h
    | some r =>
      have hs : r.status = .sent := by simpa [hr] using h
      have hR := reach_run (.init 0) hrun
      exact ⟨s, r, hR, hr, hs, sent_rows_were_sent hR hr hs⟩

/-- The worker sends, its `Update` of `sent` commits but reports an error, so it skips the
cache invalidation and requeues the message; the redelivery's revalidation is served the
stale `scheduled` entry the `Save` cached, and the worker sends and writes `sent` again. -/
private def lostUpdate : List Action :=
  [.create 0 ⟨"a@b.co", "email", "s", "", 0, none⟩ (.ok ()) (.error ""), .call 0 .ok 1,
   .call 0 .ok 0, .call 0 .ok 0, .deadLetter .wait, .deliver 0, .job 0 .ok, .send 0 true,
   .job 0 .lost, .job 0 .ok, .tick 1000, .deliver 0, .job 0 .ok, .send 0 true, .job 0 .ok]

private def sentWrites (s : State) : Nat :=
  (s.committedRows.filter fun r => r.id == 1 && r.status == .sent).length

set_option maxRecDepth 20000 in
theorem update_sent_twice :
    ∃ s, Reach anyRun s ∧ (s.committedRows.filter fun r => r.id == 1 && r.status == .sent).length = 2 := by
  have h : ((State.init 0).run anyRun lostUpdate).map sentWrites = some 2 := by decide
  cases hr : (State.init 0).run anyRun lostUpdate with
  | none => simp [hr] at h
  | some s =>
    simp only [hr, Option.map_some', Option.some.injEq, sentWrites] at h
    exact ⟨s, reach_run (.init 0) hr, h⟩

end DelayedNotifier
