import DelayedNotifier.Lineage
import DelayedNotifier.Delivery
import DelayedNotifier.Attempts

/-!
# Every notification ends on the record its own `Send`s decide

While every store, cache and broker round trip succeeds, no worker stops and nothing is
cancelled (`steady`; an API call may still stop), a row is written only by its insert, as
`scheduled`, and by the one worker whose protocol has ended, with the outcome that ending
decides (`Closing`). Every copy of a notification on the broker or with a worker, and every
mark of its trail, comes after its `Publish` (`State.Announced`), and no copy of a published
`scheduled` row is lost, since no revalidating read fails (`State.Steady`). So a stored
notification with no copy left holds the record its trail decides: `sent` after `a` failed
`Send`s, each followed by a `PublishRetry` of 10, 20, 40 and 80 s, with `attempts = a` and
`sent_at` set; `failed` after five failed `Send`s, with `attempts = 5` and no `sent_at`; or,
when its create call stopped before `Publish`, `scheduled` with no `Send` at all
(`final_record`).
-/

namespace DelayedNotifier

/-- Every store, cache and broker round trip succeeds, no worker stops, and no notification is
cancelled; the transport may fail and an API call may stop. -/
def steady (s : State) : Action → Bool
  | .cancel _ => false
  | .crashCall _ => true
  | a => reliable s a

theorem workerSafe_of_steady {s : State} {a : Action} (h : steady s a = true) :
    workerSafe s a = true := by
  cases a <;> simp_all [steady, reliable, workerSafe]

section Protocol

variable {a : Nat} {T T' : List Mark} {l l' : List Event} {n : Notification}

theorem retryTrail_length (ha : a ≤ 4) : (retryTrail a).length = 2 * a := by
  rcases (by omega : a = 0 ∨ a = 1 ∨ a = 2 ∨ a = 3 ∨ a = 4) with rfl | rfl | rfl | rfl | rfl <;>
    rfl

theorem RetryStep.from_open (h : RetryStep T T') (ha : a < 5) :
    T ≠ retryTrail a ++ [.sent true] ∧ T ≠ retryTrail 4 ++ [.sent false] := by
  cases h with
  | @send b hb ok =>
    have := retryTrail_length (a := b) (by omega)
    have := retryTrail_length (a := a) (by omega)
    have := retryTrail_length (a := 4) le_rfl
    constructor <;> intro e <;> have := congrArg List.length e <;>
      simp only [List.length_append, List.length_singleton] at this <;> omega
  | retry hb =>
    refine ⟨fun e => ?_, fun e => ?_⟩
    · simpa using (List.append_inj' e rfl).2
    · have := congrArg List.length (List.append_inj' e rfl).1
      rw [retryTrail_length (by omega), retryTrail_length (le_refl 4)] at this
      omega

theorem Closing.moves (h : Closing l n) (hm : Moves l l') : Closing l' n := by
  rcases hm n.id with e | hs
  · rcases h with ⟨a, ha, h₁, h₂⟩ | ⟨h₁, h₂⟩
    · exact .inl ⟨a, ha, e.trans h₁, h₂⟩
    · exact .inr ⟨e.trans h₁, h₂⟩
  · rcases h with ⟨a, ha, h₁, -⟩ | ⟨h₁, -⟩
    · exact absurd h₁ (hs.from_open ha).1
    · exact absurd h₁ (hs.from_open (a := 0) (by omega)).2

end Protocol

section Rows

variable {n : Notification} {fresh : Nat} {now : Int} {d : Db} {c : RepoCall}
  {l : List Event} {r r' : Row}

theorem Closing.written {t : Table} (h : Closing l n) (hk : ∀ k r, t k = some r → r.id = k)
    (hu : updateNotificationStatus t now (toDBUpdateParams n) = some r') :
    Closing l (toDomainModel r') := by
  obtain ⟨r, hr, rfl⟩ := updateNotificationStatus_some hu
  have hid : r.id = n.id := hk _ r hr
  rcases h with ⟨a, ha, h₁, h₂, h₃, h₄⟩ | ⟨h₁, h₂, h₃, h₄⟩
  · refine .inl ⟨a, ha, by simpa [toDomainModel, hid] using h₁, h₂, ?_, by simpa [toDomainModel]⟩
    simp only [toDomainModel, toDBUpdateParams, h₃, int16_of_lt (x := a) (by omega) (by omega)]
  · refine .inr ⟨by simpa [toDomainModel, hid] using h₁, h₂, ?_,
      by simp [toDomainModel, toDBUpdateParams, h₄]⟩
    simp only [toDomainModel, toDBUpdateParams, h₃]; rfl

theorem validate_scheduled {uuid : Nat} {req : CreateRequest} {address : Except String Unit}
    {chatID : Except String Int} (h : validate uuid now req address chatID = .ok n) :
    n.status = .scheduled := by
  unfold validate at h
  split_ifs at h <;> (try split at h) <;> cases h <;> rfl

theorem toDBCreateParams_status {p : CreateNotificationParams} (h : toDBCreateParams n = .ok p) :
    p.status = n.status := by
  unfold toDBCreateParams at h
  split at h <;> (try split_ifs at h) <;> cases h <;> rfl

theorem RepoCall.rows_of_reply {rep : RepoReply} (h : (c.step .ok fresh now d).2 = .inr rep) :
    (c.step .ok fresh now d).1.rows = d.rows := by
  rw [RepoCall.step_rows]
  split
  · rename_i r hw
    rcases RepoCall.written_cases hw with ⟨n, p, rfl, hp, hcr⟩ | ⟨n, rfl, hu⟩ | ⟨k, rfl, hcn⟩
    · simp [RepoCall.step, hp, hcr, Outcome.commit] at h
    · simp [RepoCall.step, hu, Outcome.commit] at h
    · simp [RepoCall.step, hcn, Outcome.commit] at h
  · rfl

theorem RepoCall.save_row (hn : n.status = .scheduled) {c' : RepoCall}
    (h : ((RepoCall.save n).step .ok fresh now d).2 = .inl c') :
    ∃ r, r.status = .scheduled ∧
      ((RepoCall.save n).step .ok fresh now d).1.rows = d.rows.put r := by
  rcases RepoCall.step_inl .ok _ h with ⟨_, h₁, -⟩ | ⟨_, _, h₁, -⟩ | ⟨_, r, h₁, hw, -⟩ |
    ⟨_, _, h₁, -⟩ | ⟨_, _, h₁, -⟩ <;> try cases h₁
  rcases RepoCall.written_cases hw with ⟨_, p, h₂, hp, hcr⟩ | ⟨_, h₂, -⟩ | ⟨_, h₂, -⟩ <;>
    cases h₂
  obtain ⟨-, -, -, -, hst, -⟩ := createNotification_ok hcr
  exact ⟨r, by rw [hst, toDBCreateParams_status hp, hn], by rw [RepoCall.step_rows, hw]⟩

theorem RepoCall.update_rows {o : Outcome} (h : Closing l n)
    (hk : ∀ k r, d.rows k = some r → r.id = k) {k : Nat}
    (hr : ((RepoCall.update n).step o fresh now d).1.rows k = some r) :
    d.rows k = some r ∨ Closing l (toDomainModel r) := by
  rw [RepoCall.step_rows] at hr
  split at hr
  · rename_i r' hw
    rcases RepoCall.written_cases hw with ⟨_, _, h₁, -⟩ | ⟨_, h₁, hu⟩ | ⟨_, h₁, -⟩ <;> cases h₁
    rw [Table.put, Function.update_apply] at hr
    split_ifs at hr
    · cases hr; exact .inr (h.written hk hu)
    · exact .inl hr
  · exact .inl hr

theorem RepoCall.read_ok (fresh : Nat) (now : Int) {k : Nat} (hc : c = .getByID k ∨ c = .getByIDPrimary k ∨
      ∃ m, c = .getByIDFill m) (hk : d.rows k ≠ none) :
    (∃ c', (c.step .ok fresh now d).2 = .inl c') ∨ ∃ n, (c.step .ok fresh now d).2 = .inr (.record n) := by
  rcases hc with rfl | rfl | ⟨m, rfl⟩
  · cases e : d.cache k <;> simp [RepoCall.step, Outcome.read, e]
  · obtain ⟨r, e⟩ := Option.ne_none_iff_exists'.1 hk
    simp [RepoCall.step, Outcome.read, e]
  · simp [RepoCall.step]

end Rows

def Published (l : List Event) (k : Nat) : Prop := ∃ n, Event.publish n ∈ l ∧ n.id = k

theorem Published.mono {l l' : List Event} {k : Nat} (h : Published l k) (hl : l <+: l') :
    Published l' k :=
  let ⟨n, hn, e⟩ := h
  ⟨n, hl.subset hn, e⟩

/-- Every message on a queue, every delivery a worker holds with its record, and every mark of
a trail, is of a notification whose `Publish` returned. -/
structure State.Announced (s : State) : Prop where
  queued : ∀ m ∈ s.wait ++ s.retry ++ s.process, Published s.log m.body.id
  jobs : ∀ j ∈ s.jobs, Published s.log j.msg.body.id ∧ Published s.log j.notification.id
  marked : ∀ k, trail k s.log ≠ [] → Published s.log k

namespace State

variable {s s' : State} {i : Nat} {m : Msg} {j : Job}

theorem Announced.append (h : s.Announced) {l : List Event}
    (hl : ∀ k, trail k l ≠ [] → Published s.log k) :
    ({ s with log := s.log ++ l } : State).Announced := by
  have hpre : s.log <+: s.log ++ l := List.prefix_append _ _
  refine ⟨fun m hm => (h.queued m hm).mono hpre,
    fun j hj => ⟨(h.jobs j hj).1.mono hpre, (h.jobs j hj).2.mono hpre⟩, fun k hk => ?_⟩
  rw [trail_append] at hk
  by_cases h₁ : trail k s.log = []
  · rw [h₁, List.nil_append] at hk
    exact (hl k hk).mono hpre
  · exact (h.marked k h₁).mono hpre

theorem Announced.record (h : s.Announced) {e : Event}
    (he : ∀ k, e.mark k ≠ none → Published s.log k) : (s.record e).Announced :=
  h.append fun k hk => he k fun e' => hk (by simp [e'])

theorem Announced.setJob (h : s.Announced) {j' : Job}
    (hj' : Published s.log j'.msg.body.id ∧ Published s.log j'.notification.id) :
    (s.setJob i j').Announced :=
  ⟨h.queued, fun x hx => (List.mem_or_eq_of_mem_set hx).elim (h.jobs x) (· ▸ hj'), h.marked⟩

theorem Announced.dropJob (h : s.Announced) : (s.dropJob i).Announced :=
  ⟨h.queued, fun x hx => h.jobs x (List.mem_of_mem_eraseIdx hx), h.marked⟩

theorem Announced.requeue (h : s.Announced) (hm : Published s.log m.body.id) :
    (s.requeue m).Announced := by
  refine ⟨fun x hx => ?_, h.jobs, h.marked⟩
  simp only [requeue_queues, ← List.append_assoc, List.mem_append, List.mem_singleton] at hx
  rcases hx with hx | rfl
  · exact h.queued x (by simpa only [List.mem_append] using hx)
  · exact hm

theorem Announced.enqueue (h : s.Announced) (o : Outcome) (q : DelayQueue)
    (hm : Published s.log m.body.id) : (s.enqueue o q m).Announced :=
  ⟨fun x hx => by simpa using (mem_enqueue hx).elim (h.queued x) (· ▸ hm), by simpa using h.jobs,
    by simpa using h.marked⟩

theorem Announced.repoStep (h : s.Announced) {o : Outcome} {fresh : Nat} {c : RepoCall}
    {s₁ : State} {r : RepoCall ⊕ RepoReply} (hp : s.repoStep o fresh c = (s₁, r)) :
    s₁.Announced := by
  obtain ⟨rfl, -⟩ := repoStep_eq hp
  have hw : ∀ k, trail k ((c.written o fresh s.now s.db).toList.map .write) = [] := fun k => by
    rcases c.written o fresh s.now s.db with _ | r <;> simp [trail, Event.mark]
  have h₁ := h.append fun k hk => absurd (hw k) hk
  exact ⟨h₁.queued, h₁.jobs, h₁.marked⟩

theorem Announced.advanceJob (h : s.Announced) (hj : s.jobs[i]? = some j) {o : Outcome}
    (hs : s.advanceJob i o j = some s') : s'.Announced := by
  have hjp := h.jobs j (List.getElem?_mem hj)
  have keep : ∀ {l}, s.log <+: l → Published l j.msg.body.id ∧ Published l j.notification.id :=
    fun hl => ⟨hjp.1.mono hl, hjp.2.mono hl⟩
  cases hpc : j.pc with
  | revalidate c =>
    rcases hp : s.repoStep o 0 c with ⟨s₁, r⟩
    have h₁ := h.repoStep hp
    obtain ⟨rfl, -⟩ := repoStep_eq hp
    rcases advanceJob_revalidate hpc hp hs with
      ⟨_, -, rfl⟩ | ⟨n, -, -, rfl⟩ | ⟨n, -, -, rfl⟩ | ⟨-, -, rfl⟩
    · exact h₁.setJob (keep (by simp))
    · exact (h₁.record fun x hx => absurd rfl hx).setJob (keep (by simp))
    · have h₂ := h₁.record (e := .found n) fun x hx => absurd rfl hx
      exact (h₂.record fun x hx => absurd rfl hx).setJob (keep (by simp))
    · exact (h₁.record fun x hx => absurd rfl hx).setJob (keep (by simp))
  | update c =>
    rcases hp : s.repoStep o 0 c with ⟨s₁, r⟩
    have h₁ := h.repoStep hp
    obtain ⟨rfl, -⟩ := repoStep_eq hp
    rcases advanceJob_update hpc hp hs with ⟨_, -, rfl⟩ | ⟨_, -, rfl⟩ | ⟨-, -, rfl⟩ <;>
      exact h₁.setJob (keep (by simp))
  | send => exact absurd hpc (advanceJob_pc hs)
  | publishRetry =>
    have h₁ := h.enqueue o .retry (m := publishRetryMsg s.now j.notification
      (calculateExponentialBackoff j.notification.attempts)) hjp.2
    rcases advanceJob_publishRetry hpc hs with ⟨-, rfl⟩ | ⟨-, rfl⟩
    · refine (h₁.record fun x hx => ?_).setJob (keep (by simp))
      simp only [Event.mark, ne_eq, ite_eq_right_iff, reduceCtorEq, imp_false, not_not] at hx
      simpa [hx] using hjp.2
    · exact h₁.setJob (keep (by simp))
  | ack =>
    rcases advanceJob_ack hpc hs with ⟨-, rfl⟩ | ⟨-, rfl⟩
    · exact h.dropJob
    · exact h.dropJob.requeue hjp.1
  | ackUnchecked =>
    rcases advanceJob_ackUnchecked hpc hs with ⟨-, rfl⟩ | ⟨-, rfl⟩
    · exact (h.record fun x hx => absurd rfl hx).dropJob
    · exact h.dropJob.requeue hjp.1
  | nack =>
    rw [advanceJob_nack hpc hs]
    exact h.dropJob.requeue hjp.1

theorem Announced.sendJob (h : s.Announced) (hj : s.jobs[i]? = some j) {ok : Bool}
    (hs : s.sendJob i ok j = some s') : s'.Announced := by
  have hjp := h.jobs j (List.getElem?_mem hj)
  have h₁ := h.record (e := .send j.notification s.now ok) fun x hx => by
    simp only [Event.mark, ne_eq, ite_eq_right_iff, reduceCtorEq, imp_false, not_not] at hx
    simpa [hx] using hjp.2
  have hjp₁ := And.intro (hjp.1.mono (List.prefix_append s.log [.send j.notification s.now ok]))
    (hjp.2.mono (List.prefix_append s.log [.send j.notification s.now ok]))
  obtain ⟨-, ⟨-, rfl⟩ | ⟨-, -, rfl⟩ | ⟨-, -, rfl⟩⟩ := sendJob_cases hs <;> exact h₁.setJob hjp₁

theorem Announced.advanceCall (h : s.Announced) (c : Call) (fresh : Nat) :
    (s.advanceCall i .ok fresh c).Announced := by
  have hset : ∀ {s₁ : State} (c' : Call), s₁.Announced → (s₁.setCall i c').Announced :=
    fun _ h₁ => ⟨h₁.queued, h₁.jobs, h₁.marked⟩
  have hdrop : ∀ {s₁ : State}, s₁.Announced → (s₁.dropCall i).Announced :=
    fun h₁ => ⟨h₁.queued, h₁.jobs, h₁.marked⟩
  cases c with
  | create c₀ =>
    rcases hp : s.repoStep .ok fresh c₀ with ⟨s₁, r⟩
    rcases advanceCall_create (i := i) hp with ⟨_, -, he⟩ | ⟨_, -, he⟩ | ⟨-, -, he⟩ <;> rw [he]
    · exact hset _ (h.repoStep hp)
    · exact hset _ (h.repoStep hp)
    · exact hdrop (h.repoStep hp)
  | publish n =>
    rw [advanceCall_publish]
    split_ifs with hcl hacc
    · exact hdrop h
    · rw [publishWait_of_accepted hacc.2, enqueue_record]
      have h₁ := h.record (e := .publish n) fun x hx => absurd rfl hx
      exact hdrop (h₁.enqueue .ok .wait ⟨n, by simp, rfl⟩)
    · rw [publishWait_of_refused (o := .ok) rfl (by simpa using hacc)]
      exact hdrop (h.record fun x hx => absurd rfl hx)
  | get c₀ =>
    rcases hp : s.repoStep .ok fresh c₀ with ⟨s₁, r⟩
    rcases advanceCall_get (i := i) hp with ⟨_, -, he⟩ | ⟨_, -, he⟩ | ⟨-, -, he⟩ <;> rw [he]
    · exact hset _ (h.repoStep hp)
    · exact hdrop ((h.repoStep hp).record fun x hx => absurd rfl hx)
    · exact hdrop (h.repoStep hp)
  | cancelLookup id c₀ =>
    rcases hp : s.repoStep .ok fresh c₀ with ⟨s₁, r⟩
    rcases advanceCall_cancelLookup (i := i) hp with
      ⟨_, -, he⟩ | ⟨_, -, -, he⟩ | ⟨_, -, -, he⟩ | ⟨-, -, he⟩ <;> rw [he]
    · exact hset _ (h.repoStep hp)
    · exact hset _ ((h.repoStep hp).record fun x hx => absurd rfl hx)
    · exact hdrop ((h.repoStep hp).record fun x hx => absurd rfl hx)
    · exact hdrop (h.repoStep hp)
  | cancelDelete id c₀ =>
    rcases hp : s.repoStep .ok fresh c₀ with ⟨s₁, r⟩
    rcases advanceCall_cancelDelete (i := i) hp with ⟨_, -, he⟩ | ⟨-, he⟩ | ⟨-, -, he⟩ <;> rw [he]
    · exact hset _ (h.repoStep hp)
    · exact hdrop ((h.repoStep hp).record fun x hx => absurd rfl hx)
    · exact hdrop (h.repoStep hp)

end State

theorem announced_step {s s' : State} (h : s.Announced) {a : Action} (hw : steady s a = true)
    (hs : s.step a = some s') : s'.Announced := by
  have hadd : ∀ c : Call, ({ s with calls := s.calls ++ [c] } : State).Announced :=
    fun _ => ⟨h.queued, h.jobs, h.marked⟩
  cases a with
  | create uuid req address chatID =>
    simp only [State.step] at hs
    split at hs <;> cases hs
    · exact hadd _
    · exact h
  | get id | cancel id => cases hs; exact hadd _
  | call i o fresh =>
    obtain rfl : o = .ok := by simpa [steady, reliable] using hw
    obtain ⟨c, -, rfl⟩ := Option.map_eq_some'.1 hs
    exact h.advanceCall c fresh
  | deliver i =>
    obtain ⟨m, hm, rfl⟩ := Option.map_eq_some'.1 hs
    have hb := h.queued m (by simp [List.getElem?_mem hm])
    refine ⟨fun x hx => h.queued x ?_, fun x hx => ?_, h.marked⟩
    · simp only [List.mem_append] at hx ⊢
      exact hx.imp_right List.mem_of_mem_eraseIdx
    · rcases List.mem_append.1 hx with hx | hx
      · exact h.jobs x hx
      · rw [List.mem_singleton.1 hx]; exact ⟨hb, hb⟩
  | job i o =>
    obtain ⟨j, hj, hs⟩ := Option.bind_eq_some.1 hs
    exact h.advanceJob hj hs
  | send i ok =>
    obtain ⟨j, hj, hs⟩ := Option.bind_eq_some.1 hs
    exact h.sendJob hj hs
  | crashJob i =>
    obtain ⟨j, hj, rfl⟩ := Option.map_eq_some'.1 hs
    exact h.dropJob.requeue (h.jobs j (List.getElem?_mem hj)).1
  | crashCall i =>
    obtain ⟨c, -, rfl⟩ := Option.map_eq_some'.1 hs
    exact ⟨h.queued, h.jobs, h.marked⟩
  | deadLetter q =>
    obtain ⟨⟨m, rest⟩, hd, rfl⟩ := Option.map_eq_some'.1 hs
    obtain ⟨hq, -⟩ := deadLetter_some hd
    have hm := h.queued m (by cases q <;> simp_all [State.queue])
    have h₁ : (s.setQueue q rest).Announced :=
      ⟨fun x hx => by cases q <;> exact h.queued x (State.mem_setQueue hq hx),
        by cases q <;> exact h.jobs, by cases q <;> exact h.marked⟩
    exact h₁.requeue (by cases q <;> exact hm)
  | tick δ | expire _ => cases hs; exact ⟨h.queued, h.jobs, h.marked⟩

theorem reach_announced {s : State} (h : Reach steady s) : s.Announced := by
  induction h with
  | init now => exact ⟨fun _ h => (by cases h), fun _ h => (by cases h), fun _ h => absurd rfl h⟩
  | next _ hw hs ih => exact announced_step ih hw hs

def Call.Calm : Call → Prop
  | .create (.save n) => n.status = .scheduled
  | .create (.saveFill _) | .publish _ => True
  | .get (.getByID _) | .get (.getByIDPrimary _) | .get (.getByIDFill _) => True
  | _ => False

/-- What keeps every row on its notification's protocol: the calls are calm, no revalidating
read has failed, so no delivery is acked unchecked, and a row that left `scheduled` holds the
outcome its trail decides. -/
structure State.Steady (s : State) : Prop where
  calm : ∀ c ∈ s.calls, c.Calm
  unchecked : ∀ j ∈ s.jobs, j.pc ≠ .ackUnchecked
  checked : ∀ k, Event.ackedUnchecked k ∉ s.log
  closed : ∀ k r, s.db.rows k = some r → r.status ≠ .scheduled → Closing s.log (toDomainModel r)

namespace State

variable {s s' : State} {i : Nat}

theorem Steady.of_step (h : s.Steady) (hm : Moves s.log s'.log) (hcalm : ∀ c ∈ s'.calls, c.Calm)
    (hjobs : ∀ j ∈ s'.jobs, j ∈ s.jobs ∨ j.pc ≠ .ackUnchecked)
    (hskip : ∀ k, Event.ackedUnchecked k ∈ s'.log → Event.ackedUnchecked k ∈ s.log)
    (hrows : ∀ k r, s'.db.rows k = some r → s.db.rows k = some r ∨ r.status = .scheduled ∨
      Closing s.log (toDomainModel r)) :
    s'.Steady := by
  refine ⟨hcalm, fun j hj => (hjobs j hj).elim (h.unchecked j) id,
    fun k hk => h.checked k (hskip k hk), fun k r hr hst => ?_⟩
  rcases hrows k r hr with hr₀ | hs | hcl
  · exact (h.closed k r hr₀ hst).moves hm
  · exact absurd hs hst
  · exact hcl.moves hm

theorem Steady.quiet (h : s.Steady) (hm : Moves s.log s'.log) (hcalls : ∀ c ∈ s'.calls, c ∈ s.calls)
    (hrows : s'.db.rows = s.db.rows) (hjobs : ∀ j ∈ s'.jobs, j ∈ s.jobs ∨ j.pc ≠ .ackUnchecked)
    (hskip : ∀ k, Event.ackedUnchecked k ∈ s'.log → Event.ackedUnchecked k ∈ s.log) :
    s'.Steady :=
  h.of_step hm (fun c hc => h.calm c (hcalls c hc)) hjobs hskip fun _ _ hr => .inl (hrows ▸ hr)

theorem jobs_setJob {j' : Job} (h : j'.pc ≠ .ackUnchecked) :
    ∀ x ∈ (s.setJob i j').jobs, x ∈ s.jobs ∨ x.pc ≠ .ackUnchecked := fun _ hx =>
  (List.mem_or_eq_of_mem_set hx).imp id fun e => by rw [e]; exact h

theorem jobs_dropJob : ∀ x ∈ (s.dropJob i).jobs, x ∈ s.jobs ∨ x.pc ≠ .ackUnchecked :=
  fun _ hx => .inl (List.mem_of_mem_eraseIdx hx)

theorem Steady.advanceJob (h : s.Steady) (hl : s.Lineage) (ht : s.Traced) (hv : s.Vouched)
    {j : Job} (hj : s.jobs[i]? = some j) (hs : s.advanceJob i .ok j = some s')
    (hm : Moves s.log s'.log) : s'.Steady := by
  have hjl := hl.jobs j (List.getElem?_mem hj)
  have hsh := (hv.jobs j (List.getElem?_mem hj)).2
  obtain ⟨r₀, hr₀, -⟩ := ht.job hj j.notification (by simp [Job.held])
  have hk : ∀ k r, s.db.rows k = some r → r.id = k := fun k r hr => (ht.db.rows k r hr).1
  have same : ∀ {s₁ : State}, s₁.calls = s.calls → ∀ c ∈ s₁.calls, c ∈ s.calls :=
    fun e c hc => e ▸ hc
  cases hpc : j.pc with
  | revalidate c =>
    rcases hp : s.repoStep .ok 0 c with ⟨s₁, r⟩
    obtain ⟨rfl, hr⟩ := repoStep_eq hp
    rw [hpc] at hsh
    have hc : c = .getByID j.notification.id ∨ c = .getByIDPrimary j.notification.id ∨
        ∃ m, c = .getByIDFill m := by
      rcases c with _ | _ | m | _ | _ | _ | _ | _ | _ <;> simp only [WorkerPc.Shaped] at hsh <;>
        simp [hsh]
    have hrows : (c.step .ok 0 s.now s.db).1.rows = s.db.rows := by
      rw [RepoCall.step_rows]; rcases hc with rfl | rfl | ⟨m, rfl⟩ <;> rfl
    rcases advanceJob_revalidate hpc hp hs with ⟨_, -, rfl⟩ | ⟨_, -, -, rfl⟩ | ⟨_, -, -, rfl⟩ |
      ⟨hx, hy, -⟩
    rotate_right
    · rcases RepoCall.read_ok (d := s.db) 0 s.now hc (by simp [hr₀]) with ⟨c', e⟩ | ⟨n, e⟩
      · exact absurd (hr ▸ e) (hx c')
      · exact absurd (hr ▸ e) (hy n)
    all_goals exact h.quiet hm (same rfl) hrows (jobs_setJob (by simp)) fun k hk => by simpa using hk
  | update c =>
    have ⟨hcl, hc⟩ : Closing s.log j.notification ∧
        (c = .update j.notification ∨ c = .updateInvalidate j.notification.id) := by
      simpa only [Job.Lined, hpc] using hjl
    rcases hp : s.repoStep .ok 0 c with ⟨s₁, r⟩
    obtain ⟨rfl, hr⟩ := repoStep_eq hp
    rcases hc with rfl | rfl
    · rw [RepoCall.update_step_ok (by simp [hr₀])] at hr
      subst hr
      rcases advanceJob_update hpc hp hs with ⟨_, -, rfl⟩ | ⟨_, he, -⟩ | ⟨hx, -, -⟩
      · exact h.of_step hm h.calm (jobs_setJob (by simp)) (fun k hk => by simpa using hk)
          fun k r hr' => (RepoCall.update_rows hcl hk hr').imp_right (.inr ·)
      · cases he
      · exact absurd rfl (hx _)
    · have hrows : ((RepoCall.updateInvalidate j.notification.id).step .ok 0 s.now s.db).1.rows =
          s.db.rows := by simp [RepoCall.step]
      rcases advanceJob_update hpc hp hs with ⟨_, -, rfl⟩ | ⟨_, -, rfl⟩ | ⟨-, -, rfl⟩ <;>
        exact h.quiet hm (same rfl) hrows (jobs_setJob (by simp)) fun k hk => by simpa using hk
  | send => exact absurd hpc (advanceJob_pc hs)
  | publishRetry =>
    rcases advanceJob_publishRetry hpc hs with ⟨-, rfl⟩ | ⟨ho, -⟩
    · exact h.quiet hm (same (by simp)) (by simp) (by simpa using jobs_setJob (by simp))
        fun k hk => by simpa using hk
    · exact absurd rfl ho
  | ack =>
    rcases advanceJob_ack hpc hs with ⟨-, rfl⟩ | ⟨ho, -⟩
    · exact h.quiet hm (same rfl) rfl jobs_dropJob fun _ => id
    · exact absurd rfl ho
  | ackUnchecked => exact absurd hpc (h.unchecked j (List.getElem?_mem hj))
  | nack =>
    rw [advanceJob_nack hpc hs] at hm ⊢
    exact h.quiet hm (same rfl) rfl jobs_dropJob fun _ => id

theorem Steady.advanceCall (h : s.Steady) {c : Call} (hc : s.calls[i]? = some c) (fresh : Nat)
    (hm : Moves s.log (s.advanceCall i .ok fresh c).log) : (s.advanceCall i .ok fresh c).Steady := by
  have hcalm := h.calm c (List.getElem?_mem hc)
  have hset : ∀ {s₁ : State} (c' : Call), s₁.calls = s.calls → c'.Calm →
      ∀ x ∈ (s₁.setCall i c').calls, x.Calm := fun c' hcalls hc' x hx => by
    rw [setCall_calls, hcalls] at hx
    exact (List.mem_or_eq_of_mem_set hx).elim (h.calm x) (· ▸ hc')
  have hdrop : ∀ {s₁ : State}, s₁.calls = s.calls → ∀ x ∈ (s₁.dropCall i).calls, x ∈ s.calls :=
    fun hcalls x hx => by
      rw [dropCall_calls, hcalls] at hx
      exact List.mem_of_mem_eraseIdx hx
  cases c with
  | create c₀ =>
    rcases hp : s.repoStep .ok fresh c₀ with ⟨s₁, r⟩
    obtain ⟨rfl, hr⟩ := repoStep_eq hp
    rcases c₀ with _ | _ | _ | n | n | _ | _ | _ | _ <;> simp only [Call.Calm] at hcalm
    · rcases advanceCall_create (i := i) hp with ⟨c', rfl, he⟩ | ⟨n', rfl, -⟩ | ⟨hx, -, he⟩
      · rw [he] at hm ⊢
        obtain ⟨r₀, hst, hrows⟩ := RepoCall.save_row hcalm hr
        have hc' : (Call.create c').Calm := by
          rcases RepoCall.step_inl .ok _ hr with ⟨_, h₁, -⟩ | ⟨_, _, h₁, -⟩ | ⟨_, _, -, -, rfl⟩ |
            ⟨_, _, h₁, -⟩ | ⟨_, _, h₁, -⟩ <;> trivial
        refine h.of_step hm (hset _ rfl hc') (fun x hx => .inl hx) (fun k hk => by simpa using hk)
          fun k r hr' => ?_
        simp only [setCall_db, hrows, Table.put, Function.update_apply] at hr'
        split_ifs at hr'
        · cases hr'; exact .inr (.inl hst)
        · exact .inl hr'
      · rcases RepoCall.step_record .ok _ hr with ⟨_, h₁, -⟩ | h₁ <;> cases h₁
      · rw [he] at hm ⊢
        obtain ⟨rep, rfl⟩ : ∃ rep, r = .inr rep := by
          rcases r with c' | rep
          · exact absurd rfl (hx c')
          · exact ⟨rep, rfl⟩
        refine h.quiet hm (hdrop rfl) ?_ (fun x hx => .inl hx) fun k hk => by simpa using hk
        rw [dropCall_db, RepoCall.rows_of_reply hr]
    · obtain rfl : r = .inr (.record n) := hr.symm
      rcases advanceCall_create (i := i) hp with ⟨c', h₁, -⟩ | ⟨n', h₁, he⟩ | ⟨-, hy, -⟩
      · cases h₁
      · cases h₁
        rw [he] at hm ⊢
        exact h.of_step hm (hset _ rfl trivial) (fun x hx => .inl hx) (fun k hk => by simpa using hk)
          fun k r hr' =>
          .inl (by simpa [RepoCall.step] using hr')
      · exact absurd rfl (hy n)
  | get c₀ =>
    rcases hp : s.repoStep .ok fresh c₀ with ⟨s₁, r⟩
    obtain ⟨rfl, hr⟩ := repoStep_eq hp
    have hrows : (c₀.step .ok fresh s.now s.db).1.rows = s.db.rows := by
      rw [RepoCall.step_rows]
      rcases c₀ with _ | _ | _ | _ | _ | _ | _ | _ | _ <;> first | rfl | exact hcalm.elim
    rcases advanceCall_get (i := i) hp with ⟨c', rfl, he⟩ | ⟨_, -, he⟩ | ⟨-, -, he⟩ <;>
      rw [he] at hm ⊢
    · have hc' : (Call.get c').Calm := by
        rcases RepoCall.step_inl .ok _ hr with ⟨_, rfl, rfl⟩ | ⟨_, _, rfl, -, rfl⟩ | ⟨_, _, rfl, -⟩ |
          ⟨_, _, rfl, -⟩ | ⟨_, _, rfl, -⟩ <;> simp only [Call.Calm] at hcalm ⊢
      exact h.of_step hm (hset _ rfl hc') (fun x hx => .inl hx) (fun k hk => by simpa using hk)
        fun k r hr' => .inl (hrows ▸ hr')
    all_goals exact h.quiet hm (hdrop rfl) hrows (fun x hx => .inl hx) fun k hk => by simpa using hk
  | publish n =>
    rw [advanceCall_publish] at hm ⊢
    rcases publishWait_eq s (publishMsg s.now n) .ok with e | ⟨-, -, e⟩ <;> rw [e] at hm ⊢ <;>
      split_ifs at hm ⊢ <;>
      exact h.quiet hm (hdrop (by simp)) (by simp) (fun x hx => .inl (by simpa using hx))
        fun k hk => by simpa using hk
  | cancelLookup _ _ | cancelDelete _ _ => exact hcalm.elim

end State

theorem Reach.mono {P Q : State → Action → Bool} (hPQ : ∀ s a, P s a = true → Q s a = true)
    {s : State} (h : Reach P s) : Reach Q s := by
  induction h with
  | init now => exact .init now
  | next _ hp hs ih => exact ih.next (hPQ _ _ hp) hs

theorem steady_step {s s' : State} (h : s.Steady) (hl : s.Lineage) (ht : s.Traced)
    (hv : s.Vouched) (hr : s.Released) {a : Action} (hw : steady s a = true)
    (hs : s.step a = some s') : s'.Steady := by
  have hm := (lineage_step hl ht hr (workerSafe_of_steady hw) hs).2
  have hadd : ∀ c : Call, c.Calm → ({ s with calls := s.calls ++ [c] } : State).Steady :=
    fun c hc => h.of_step (fun k => .inl rfl)
      (fun c' hc' => (List.mem_append.1 hc').elim (h.calm c') fun e => List.mem_singleton.1 e ▸ hc)
      (fun x hx => .inl hx) (fun _ => id) fun _ _ hr => .inl hr
  cases a with
  | create uuid req address chatID =>
    simp only [State.step] at hs
    split at hs <;> cases hs
    · exact hadd _ (validate_scheduled ‹_›)
    · exact h
  | get id => cases hs; exact hadd _ trivial
  | cancel id => simp [steady] at hw
  | call i o fresh =>
    obtain rfl : o = .ok := by simpa [steady, reliable] using hw
    obtain ⟨c, hc, rfl⟩ := Option.map_eq_some'.1 hs
    exact h.advanceCall hc fresh hm
  | deliver i =>
    obtain ⟨m, -, rfl⟩ := Option.map_eq_some'.1 hs
    refine h.quiet hm (fun _ => id) rfl (fun x hx => ?_) fun _ => id
    exact (List.mem_append.1 hx).imp id fun e => by rw [List.mem_singleton.1 e]; simp
  | job i o =>
    obtain rfl : o = .ok := by simpa [steady, reliable] using hw
    obtain ⟨j, hj, hs⟩ := Option.bind_eq_some.1 hs
    exact h.advanceJob hl ht hv hj hs hm
  | send i ok =>
    obtain ⟨j, -, hs⟩ := Option.bind_eq_some.1 hs
    obtain ⟨-, ⟨-, rfl⟩ | ⟨-, -, rfl⟩ | ⟨-, -, rfl⟩⟩ := State.sendJob_cases hs <;>
      exact h.quiet hm (fun _ => id) rfl (State.jobs_setJob (by simp)) fun k hk => by simpa using hk
  | crashJob i => simp [steady, reliable] at hw
  | crashCall i =>
    obtain ⟨c, -, rfl⟩ := Option.map_eq_some'.1 hs
    exact h.quiet hm (fun _ hx => List.mem_of_mem_eraseIdx hx) rfl (fun x hx => .inl hx) fun _ => id
  | deadLetter q =>
    obtain ⟨⟨m, rest⟩, -, rfl⟩ := Option.map_eq_some'.1 hs
    exact h.quiet hm (fun _ hx => by cases q <;> exact hx) (by cases q <;> rfl)
      (fun _ hx => .inl (by cases q <;> exact hx)) fun _ hk => by cases q <;> exact hk
  | tick δ => cases hs; exact h.quiet hm (fun _ => id) rfl (fun x hx => .inl hx) fun _ => id
  | expire _ => cases hs; exact h.quiet hm (fun _ => id) (by simp) (fun x hx => .inl hx) fun _ => id

theorem reach_steady {s : State} (h : Reach steady s) : s.Steady := by
  induction h with
  | init now =>
    exact ⟨fun _ h => (by cases h), fun _ h => (by cases h), fun _ h => (by cases h),
      fun _ _ h => (by cases h)⟩
  | next hr hw hs ih =>
    exact steady_step ih (reach_lineage (hr.mono fun _ _ => workerSafe_of_steady))
      (reach_traced hr) (reach_sound hr).2 (reach_released hr) hw hs

theorem State.live_pos {s : State} (hv : s.Vouched) {k : Nat} (h : s.LiveCopy k) :
    0 < s.live k := by
  simp only [State.live]
  obtain ⟨m, hm, rfl⟩ := h
  rcases State.mem_copies.1 hm with hq | ⟨j, hj, hpc, rfl⟩
  · have : 0 < (s.wait ++ s.retry ++ s.process).countP (·.body.id == m.body.id) :=
      List.countP_pos_iff.2 ⟨m, hq, by simp⟩
    omega
  · have hl : j.live j.msg.body.id = true := by simp [Job.live, (hv.jobs j hj).1, hpc]
    have := List.countP_pos_iff.2 ⟨j, hj, hl⟩; omega

/-- In a steady run, a stored notification with no copy left holds the record its own `Send`s
decide: `sent`, with `attempts = a` and `sent_at` set, once the `Send` after `a` failed ones
succeeds, each failed one followed by its `PublishRetry` of 10, 20, 40 or 80 s; `failed`,
with `attempts = 5` and no `sent_at`, once the fifth fails; or `scheduled` with no `Send`, when
it was never published. -/
theorem final_record {s : State} (h : Reach steady s) {k : Nat} {r : Row}
    (hr : s.db.rows k = some r) (hk : s.live k = 0) :
    (∃ a : Nat, a < 5 ∧ trail k s.log = retryTrail a ++ [.sent true] ∧ r.status = .sent ∧
        r.attempts = a ∧ r.sentAt.isSome) ∨
      (trail k s.log = retryTrail 4 ++ [.sent false] ∧ r.status = .failed ∧ r.attempts = 5 ∧
        r.sentAt = none) ∨
      (trail k s.log = [] ∧ r.status = .scheduled) := by
  have hs := reach_steady h
  obtain ⟨ht, hv⟩ := reach_sound h
  have hid : r.id = k := (ht.db.rows k r hr).1
  by_cases hst : r.status = .scheduled
  · refine .inr (.inr ⟨by_contra fun htr => ?_, hst⟩)
    have hpub := (reach_announced h).marked k htr
    exact absurd hk (State.live_pos hv (reach_noLoss h k ⟨⟨r, hr, hst⟩, hpub, hs.checked k⟩)).ne'
  · have hcl := hs.closed k r hr hst
    simp only [Closing, toDomainModel, hid] at hcl
    exact hcl.imp_right .inl

private def sentOnRetry : List Action :=
  [.create 0 ⟨"a@b.co", "email", "s", "", 1500000, none⟩ (.ok ()) (.error ""), .call 0 .ok 1,
   .call 0 .ok 0, .call 0 .ok 0, .tick 1000000, .deadLetter .wait, .deliver 0, .job 0 .ok,
   .send 0 false, .job 0 .ok, .job 0 .ok, .tick 10000000000, .deadLetter .retry, .deliver 0,
   .job 0 .ok, .send 0 true, .job 0 .ok, .job 0 .ok, .job 0 .ok]

private def endedSent (s : State) : Bool :=
  s.live 1 == 0 && match s.db.rows 1 with
    | some r => r.status == .sent
    | none => false

set_option maxRecDepth 20000 in
theorem final_record_after_retry :
    ∃ s r, Reach steady s ∧ s.db.rows 1 = some r ∧ s.live 1 = 0 ∧ r.status = .sent ∧
      ((∃ a : Nat, a < 5 ∧ trail 1 s.log = retryTrail a ++ [.sent true] ∧ r.status = .sent ∧
          r.attempts = a ∧ r.sentAt.isSome) ∨
        (trail 1 s.log = retryTrail 4 ++ [.sent false] ∧ r.status = .failed ∧ r.attempts = 5 ∧
          r.sentAt = none) ∨
        (trail 1 s.log = [] ∧ r.status = .scheduled)) := by
  have h : ((State.init 0).run steady sentOnRetry).map endedSent = some true := by decide
  cases hrun : (State.init 0).run steady sentOnRetry with
  | none => simp [hrun] at h
  | some s =>
    simp only [hrun, Option.map_some', Option.some.injEq, endedSent, Bool.and_eq_true,
      beq_iff_eq] at h
    obtain ⟨hk, hr⟩ := h
    cases e : s.db.rows 1 with
    | none => simp [e] at hr
    | some r =>
      simp only [e, beq_iff_eq] at hr
      have hR := reach_run (.init 0) hrun
      exact ⟨s, r, hR, e, hk, hr, final_record hR e hk⟩

end DelayedNotifier
