import DelayedNotifier.Copies

/-!
# The notifiers behind `Send`

`NewDispatcher` maps both channels to the `LogNotifier`, and in `production` mode replaces it
by the `EmailNotifier` when an SMTP host is configured and by the `TelegramNotifier` when a
bot token is. `Dispatcher.Send` looks up the notifier of the record's channel; a notifier
refuses a record whose recipient does not fit its channel, and otherwise builds its message (a
`gomail` message, or a Markdown chat message) and returns what its transport returns, while
the `LogNotifier` only logs. A worker sends the copy it decoded from the message body, which
may have gone through retries and redeliveries since the row was read. On every run, every
`Send` still hands its transport the message the row under that id builds, and no notifier
refuses it (`send_hands_stored_message`).
-/

namespace DelayedNotifier

def Channel.text : Channel → String
  | .email => "email"
  | .telegram => "telegram"

/-- The fields of `config.NotifiersConfig` that `NewDispatcher` and the notifiers read:
the mode, `Email.Host`, `Email.From` and `Telegram.BotToken`. -/
structure NotifiersConfig where
  mode : String
  emailHost : String
  emailFrom : String
  botToken : String
  deriving DecidableEq, Repr

inductive Outgoing
  | mail (sender recipient subject body : String)
  | chat (chatID : Int) (text : String)
  deriving DecidableEq, Repr

inductive Notifier
  | log
  | email (sender : String)
  | telegram
  deriving DecidableEq, Repr

structure Dispatcher where
  notifiers : Channel → Option Notifier

def newDispatcher (cfg : NotifiersConfig) (botAPI : Except String Unit) : Except String Dispatcher :=
  let notifiers : Channel → Option Notifier := fun _ => some .log
  if cfg.mode = "production" then
    let notifiers := if cfg.emailHost ≠ "" then
      Function.update notifiers .email (some (.email cfg.emailFrom)) else notifiers
    if cfg.botToken ≠ "" then
      match botAPI with
      | .error e => .error
          ("failed to initialize telegram notifier: failed to create telegram bot api: " ++ e)
      | .ok () => .ok ⟨Function.update notifiers .telegram (some .telegram)⟩
    else .ok ⟨notifiers⟩
  else .ok ⟨notifiers⟩

/-- A notifier's `Send` up to its transport: its refusal, the message it hands the transport,
or nothing for the `LogNotifier`, which only logs. -/
def Notifier.compose : Notifier → Notification → Except String (Option Outgoing)
  | .log, _ => .ok none
  | .email sender, n =>
    match n.channel, n.email with
    | .email, some e => .ok (some (.mail sender e.address n.subject n.message))
    | _, _ => .error "invalid notification for email channel"
  | .telegram, n =>
    match n.channel, n.telegram with
    | .telegram, some t => .ok (some (.chat t.chatID ("*" ++ n.subject ++ "*\n\n" ++ n.message)))
    | _, _ => .error "invalid notification for telegram channel"

def Notifier.send (nt : Notifier) (n : Notification) (transport : Outgoing → Except String Unit) :
    Except String Unit :=
  match nt.compose n with
  | .error e => .error e
  | .ok none => .ok ()
  | .ok (some out) => transport out

def Dispatcher.send (d : Dispatcher) (n : Notification) (transport : Outgoing → Except String Unit) :
    Except String Unit :=
  match d.notifiers n.channel with
  | none => .error ("notifier for channel " ++ n.channel.text ++ " not found")
  | some nt => nt.send n transport

def Notifier.serves : Notifier → Channel → Bool
  | .log, _ => true
  | .email _, ch => ch == .email
  | .telegram, ch => ch == .telegram

section Dispatch

variable {cfg : NotifiersConfig} {botAPI : Except String Unit} {d : Dispatcher}

theorem newDispatcher_serves (hd : newDispatcher cfg botAPI = .ok d) (ch : Channel) :
    ∃ nt, d.notifiers ch = some nt ∧ nt.serves ch := by
  unfold newDispatcher at hd
  split_ifs at hd <;> (try split at hd) <;> cases hd <;>
    cases ch <;> simp [Function.update_apply, Notifier.serves]

theorem Notifier.compose_fixed (nt : Notifier) (n : Notification) :
    nt.compose n.fixed = nt.compose n := by
  cases nt <;> rfl

theorem Notifier.compose_ok {nt : Notifier} {n : Notification} (hs : nt.serves n.channel)
    (hr : n.recipientOk) : ∃ out, nt.compose n = .ok out := by
  rcases n with ⟨_, _, _, channel, _, _, _, email, telegram, _, _, _, _⟩
  cases nt <;> cases channel <;> cases email <;> cases telegram <;>
    simp_all [Notifier.compose, Notifier.serves, Notification.recipientOk]

theorem Notifier.send_of_compose {nt : Notifier} {n : Notification} {out : Option Outgoing}
    (h : nt.compose n = .ok out) (transport : Outgoing → Except String Unit) :
    nt.send n transport = (out.map transport).getD (.ok ()) := by
  cases out <;> simp [Notifier.send, h]

theorem Stored.compose {t : Table} {n : Notification} (h : Stored t n) (nt : Notifier) :
    ∃ r, t n.id = some r ∧ nt.compose n = nt.compose (toDomainModel r) := by
  obtain ⟨r, hr, e⟩ := h
  exact ⟨r, hr, by rw [← Notifier.compose_fixed nt n, ← e, Notifier.compose_fixed]⟩

end Dispatch

/-- Every `Send` a worker has made, on any run and with any dispatcher `NewDispatcher` builds,
went to a notifier that accepted the record and handed its transport the message that the row
stored under that id builds, or nothing for the `LogNotifier`: `Send` returns what the
transport returns, never a refusal of its own. -/
theorem send_hands_stored_message {P : State → Action → Bool} {s : State} (h : Reach P s)
    {cfg : NotifiersConfig} {botAPI : Except String Unit} {d : Dispatcher}
    (hd : newDispatcher cfg botAPI = .ok d) {n : Notification} {t : Int} {ok : Bool}
    (hn : Event.send n t ok ∈ s.log) :
    ∃ r nt out, s.db.rows n.id = some r ∧ d.notifiers n.channel = some nt ∧
      nt.compose (toDomainModel r) = .ok out ∧
      ∀ transport, d.send n transport = (out.map transport).getD (.ok ()) := by
  have ht := reach_traced h
  have hs : Stored s.db.rows n :=
    ht.held n (State.mem_held.2 (.inr (.inr (.inr ⟨_, hn, by simp [Event.held]⟩))))
  obtain ⟨nt, hnt, hserves⟩ := newDispatcher_serves hd n.channel
  obtain ⟨out, hout⟩ := Notifier.compose_ok hserves (ht.db.recipientOk hs)
  obtain ⟨r, hr, hc⟩ := hs.compose nt
  exact ⟨r, nt, out, hr, hnt, hc ▸ hout, fun transport => by
    simp only [Dispatcher.send, hnt, Notifier.send_of_compose hout]⟩

private def sentOnce : List Action :=
  [.create 0 ⟨"a@b.co", "email", "s", "", 1500000, none⟩ (.ok ()) (.error ""), .call 0 .ok 1,
   .call 0 .ok 0, .call 0 .ok 0, .tick 1000000, .deadLetter .wait, .deliver 0, .job 0 .ok,
   .send 0 true]

private def isSend : Event → Bool
  | .send .. => true
  | _ => false

private def smtpOnly : NotifiersConfig := ⟨"production", "smtp.b.co", "noreply@b.co", ""⟩

set_option maxRecDepth 20000 in
theorem send_hands_stored_message_over_smtp :
    ∃ s d n t ok, Reach anyRun s ∧ newDispatcher smtpOnly (.ok ()) = .ok d ∧
      Event.send n t ok ∈ s.log ∧ ∃ r nt out, s.db.rows n.id = some r ∧
        d.notifiers n.channel = some nt ∧ nt.compose (toDomainModel r) = .ok out ∧
        ∀ transport, d.send n transport = (out.map transport).getD (.ok ()) := by
  have h : ((State.init 0).run anyRun sentOnce).map (·.log.any isSend) = some true := by decide
  cases hrun : (State.init 0).run anyRun sentOnce with
  | none => simp [hrun] at h
  | some s =>
    simp only [hrun, Option.map_some', Option.some.injEq, List.any_eq_true] at h
    obtain ⟨e, he, hs⟩ := h
    cases e with
    | send n t ok =>
      have hR := reach_run (.init 0) hrun
      have hd : newDispatcher smtpOnly (.ok ()) =
          .ok ⟨Function.update (fun _ => some .log) .email (some (.email "noreply@b.co"))⟩ := rfl
      exact ⟨s, _, n, t, ok, hR, hd, he, send_hands_stored_message hR hd he⟩
    | _ => cases hs

end DelayedNotifier
