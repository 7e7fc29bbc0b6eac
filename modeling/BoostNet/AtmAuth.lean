/-
Authentication at the ATM (Concurrent/day08-Actor): who answers a `verify_pin`.

`verifying_pin` goes to `wait_for_action` on the first `pin_verified` it meets. It
can leave by `cancel_pressed` while the reply is outstanding, and that reply then
waits in the ATM's queue, or its request in the bank's, until the next customer's
ATM is in `verifying_pin` again. What the ATM accepts there is the previous
customer's pin.

`verify_pin_answered` is the condition under which it is the right one, over every
run: whenever the ATM sends a `verify_pin`, no `pin_verified` waits in its queue
and no `verify_pin` with the correct pin waits in the bank's. The invariant behind
it is `Pending`: in `verifying_pin` the session's own request is either the only
one left that the bank could confirm, or has been processed and is the one a
`pin_verified` in the queue answers. `verify_pin_stale` is the run on which a wrong
pin is accepted.
-/
import BoostNet.Atm

set_option autoImplicit false

namespace BoostNet.Atm

/-! ## Pins in the history and in the queue -/

def Event.sent : Event → Option Text
  | .pin_sent pin => some pin
  | .card_accepted | .pin_processed _ | .pin_accepted | .debited _ => none

def Event.processed : Event → Option Text
  | .pin_processed pin => some pin
  | .card_accepted | .pin_sent _ | .pin_accepted | .debited _ => none

def BankMsg.pin : BankMsg → Option Text
  | .verify_pin _ pin => some pin
  | .withdraw _ _ | .get_balance _ | .withdrawal_processed _ _ | .cancel_withdrawal _ _
  | .close_queue => none

/-- The pins of the `verify_pin` messages sent, in order. -/
def sentPins (log : List Event) : List Text := log.filterMap Event.sent

/-- The pins of the `verify_pin` messages the bank has handled, in order. -/
def processedPins (log : List Event) : List Text := log.filterMap Event.processed

/-- The pins of the `verify_pin` messages waiting at the bank, in order. -/
def queuedPins (q : List BankMsg) : List Text := q.filterMap BankMsg.pin

/-- The PINs that were sent, read off the log event by event. -/
@[simp] theorem sentPins_append (l k : List Event) :
    sentPins (l ++ k) = sentPins l ++ sentPins k := List.filterMap_append

/-- Those that the bank has processed likewise. -/
@[simp] theorem processedPins_append (l k : List Event) :
    processedPins (l ++ k) = processedPins l ++ processedPins k := List.filterMap_append

/-- And those that are still in its queue. -/
@[simp] theorem queuedPins_append (q r : List BankMsg) :
    queuedPins (q ++ r) = queuedPins q ++ queuedPins r := List.filterMap_append

/-- One event sends one PIN at most. -/
@[simp] theorem sentPins_singleton (e : Event) : sentPins [e] = e.sent.toList := by
  cases h : e.sent <;> simp [sentPins, h]

@[simp] theorem processedPins_singleton (e : Event) :
    processedPins [e] = e.processed.toList := by
  cases h : e.processed <;> simp [processedPins, h]

@[simp] theorem queuedPins_singleton (m : BankMsg) : queuedPins [m] = m.pin.toList := by
  cases h : m.pin <;> simp [queuedPins, h]

/-! ## What authentication means -/

/-- The history since the last accepted card is `session`. -/
def Session (log session : List Event) : Prop :=
  ∃ before, log = before ++ .card_accepted :: session ∧ .card_accepted ∉ session

/-- The session has sent one `verify_pin`, with the correct pin, and the bank has
handled it. The bank handles the messages in the order they were sent
(`Auth.fifo`), so it has handled the last one when it has handled as many as were
sent. -/
def Verified (log : List Event) : Prop :=
  ∃ session, Session log session ∧ sentPins session = [correct_pin] ∧
    (sentPins log).length = (processedPins log).length

/-- Every move from `verifying_pin` to `wait_for_action` was made by a verified
session. -/
def Sys.Authenticated (s : Sys) : Prop :=
  ∀ pre post, s.log = pre ++ .pin_accepted :: post → Verified pre

/-- The ATM's next step takes the last digit and sends `verify_pin`. -/
def Sys.sendsVerify (s : Sys) : Bool :=
  match s.atm.state, s.atm_queue with
  | .getting_pin, .user (.digit_pressed digit) :: _ =>
      s.atm.entered && ((s.atm.pin ++ [digit]).length == pin_length)
  | _, _ => false

/-- A `verify_pin` is sent only when nothing left over can be confirmed. -/
def NoStaleVerify (s : Sys) (a : Action) : Prop :=
  a = .atm → s.sendsVerify = true →
    .pin_verified ∉ s.atm_queue ∧ correct_pin ∉ queuedPins s.bank_queue

instance (s : Sys) (a : Action) : Decidable (NoStaleVerify s a) :=
  inferInstanceAs (Decidable (_ → _ → _))

/-! ## The invariant -/

/-- Where the session's request with pin `p` is. -/
inductive Pending (q : List AtmMsg) (b : List BankMsg) (p : Text) : Prop where
  | queued (old : List Text) (hb : queuedPins b = old ++ [p]) (ho : correct_pin ∉ old)
      (hq : .pin_verified ∉ q)
  | answered (hb : queuedPins b = []) (hq : .pin_verified ∈ q → p = correct_pin)

structure Auth (s : Sys) : Prop where
  authenticated : s.Authenticated
  fifo : sentPins s.log = processedPins s.log ++ queuedPins s.bank_queue
  getting : s.atm.state = .getting_pin → ∃ session, Session s.log session ∧ sentPins session = []
  verifying : s.atm.state = .verifying_pin →
    ∃ session p, Session s.log session ∧ sentPins session = [p] ∧
      Pending s.atm_queue s.bank_queue p

/-- No card, no session. -/
theorem auth_init : Auth system.init where
  authenticated := fun pre post h => absurd h (by simp [system])
  fifo := rfl
  getting := fun h => by cases h
  verifying := fun h => by cases h

/-! ### History lemmas -/

/-- The session of a log goes on until the next card. -/
theorem session_append {log session : List Event} (h : Session log session) {ev : List Event}
    (hev : .card_accepted ∉ ev) : Session (log ++ ev) (session ++ ev) := by
  obtain ⟨before, rfl, hs⟩ := h
  exact ⟨before, by simp, by simp [hs, hev]⟩

/-- Events other than a move to `wait_for_action` keep the history good. -/
theorem authenticated_append {log ev : List Event}
    (h : ∀ pre post, log = pre ++ .pin_accepted :: post → Verified pre)
    (hev : .pin_accepted ∉ ev) :
    ∀ pre post, log ++ ev = pre ++ .pin_accepted :: post → Verified pre := by
  intro pre post heq
  rcases List.append_eq_append_iff.mp heq with ⟨k, hpre, hpost⟩ | ⟨k, hlog, hpost⟩
  · exact absurd (by rw [hpost]; simp) hev
  · cases k with
    | nil => exact absurd (by rw [List.nil_append] at hpost; rw [← hpost]; simp) hev
    | cons e k =>
        rw [List.cons_append, List.cons.injEq] at hpost
        obtain ⟨rfl, -⟩ := hpost
        exact h pre k hlog

/-- The move to `wait_for_action` itself. -/
theorem authenticated_accept {log : List Event}
    (h : ∀ pre post, log = pre ++ .pin_accepted :: post → Verified pre) (hv : Verified log) :
    ∀ pre post, log ++ [.pin_accepted] = pre ++ .pin_accepted :: post → Verified pre := by
  intro pre post heq
  rcases List.eq_nil_or_concat post with rfl | ⟨post, e, rfl⟩
  · obtain rfl : log = pre := by simpa using heq
    exact hv
  · rw [List.concat_eq_append, ← List.cons_append, ← List.append_assoc] at heq
    exact h pre post (List.append_inj_left' heq rfl)

/-- Other messages leave a pending request where it is. -/
theorem Pending.of_sublist {q q' : List AtmMsg} {b b' : List BankMsg} {p : Text}
    (h : Pending q b p) (hb : queuedPins b' = queuedPins b)
    (hq : .pin_verified ∈ q' → .pin_verified ∈ q) : Pending q' b' p := by
  cases h with
  | queued old hb' ho hq' => exact .queued old (hb.trans hb') ho fun h => hq' (hq h)
  | answered hb' hq' => exact .answered (hb.trans hb') fun h => hq' (hq h)

/-! ### One lemma per actor -/

/-- Any message but `pin_verified` may come to the ATM at any time. -/
theorem auth_push {s : Sys} (h : Auth s) {m : AtmMsg} (hm : m ≠ .pin_verified) :
    Auth { s with atm_queue := s.atm_queue ++ [m] } where
  authenticated := h.authenticated
  fifo := h.fifo
  getting := h.getting
  verifying hst := by
    obtain ⟨session, p, hs, hp, hpend⟩ := h.verifying hst
    exact ⟨session, p, hs, hp, hpend.of_sublist rfl (by simp [Ne.symm hm])⟩

/-- Closing the queue of the bank sends no PIN. -/
theorem auth_close_bank {s : Sys} (h : Auth s) :
    Auth { s with bank_queue := s.bank_queue ++ [.close_queue] } where
  authenticated := h.authenticated
  fifo := by simp [h.fifo, BankMsg.pin]
  getting := h.getting
  verifying hst := by
    obtain ⟨session, p, hs, hp, hpend⟩ := h.verifying hst
    exact ⟨session, p, hs, hp, hpend.of_sublist (by simp [BankMsg.pin]) id⟩

/-- A step of the ATM outside `verify_pin`'s business: no pin is sent and no move
to `wait_for_action` from `verifying_pin` is made, and the ATM is not then in
`getting_pin` or `verifying_pin` unless it was. -/
theorem auth_quiet {s : Sys} (h : Auth s) {q : List AtmMsg} {r : Reaction}
    (hq : .pin_verified ∈ q → .pin_verified ∈ s.atm_queue)
    (hlog : r.log = []) (hbank : queuedPins r.bank = [])
    (hget : r.atm.state = .getting_pin → s.atm.state = .getting_pin)
    (hver : r.atm.state = .verifying_pin → s.atm.state = .verifying_pin) :
    Auth (s.react q r) where
  authenticated := by
    simp only [Sys.Authenticated, Sys.react, hlog, List.append_nil]
    exact h.authenticated
  fifo := by simp [Sys.react, hlog, hbank, h.fifo]
  getting hst := by
    simp only [Sys.react, hlog, List.append_nil]
    exact h.getting (hget hst)
  verifying hst := by
    obtain ⟨session, p, hs, hp, hpend⟩ := h.verifying (hver hst)
    simp only [Sys.react, hlog, List.append_nil]
    exact ⟨session, p, hs, hp, hpend.of_sublist (by simp [hbank]) hq⟩

/-- The ATM handles a message in its state; a `pin_verified` must be the answer to the session's own
PIN, which is the condition. -/
theorem auth_handled {s : Sys} (h : Auth s) {msg : AtmMsg} {q : List AtmMsg} {r : Reaction}
    (hq : s.atm_queue = msg :: q) (he : s.atm.entered = true) (hr : Handled s.atm msg r)
    (hG : NoStaleVerify s .atm) : Auth (s.react q r) := by
  have hsub : .pin_verified ∈ q → .pin_verified ∈ s.atm_queue := by
    rw [hq]
    exact List.mem_cons_of_mem msg
  cases hr with
  | card account hst =>
      -- a new session begins: nothing was sent in it yet
      refine ⟨?_, ?_, fun _ => ?_, fun h => by cases h⟩
      · exact authenticated_append h.authenticated (by simp)
      · simp [Sys.react, h.fifo, Event.sent, Event.processed]
      · exact ⟨[], ⟨s.log, rfl, by simp⟩, rfl⟩
  | last_digit digit hst hl =>
      -- nothing left over can be confirmed, so the new request is the only one
      have hsend : s.sendsVerify = true := by
        simp [Sys.sendsVerify, hst, hq, he, hl]
      obtain ⟨hnov, hold⟩ := hG rfl hsend
      obtain ⟨session, hs, hp⟩ := h.getting hst
      refine ⟨?_, ?_, fun h => (by cases h), fun _ => ?_⟩
      · exact authenticated_append h.authenticated (by simp)
      · simp [Sys.react, h.fifo, Event.sent, Event.processed, BankMsg.pin]
      · refine ⟨session ++ [.pin_sent (s.atm.pin ++ [digit])], s.atm.pin ++ [digit], ?_, ?_, ?_⟩
        · exact session_append hs (by simp)
        · rw [sentPins_append, hp]
          rfl
        · exact .queued (queuedPins s.bank_queue)
            (by simp [Sys.react, BankMsg.pin]) hold fun hmem => hnov (hsub hmem)
  | verified hst =>
      -- the reply in hand says the session's own request was the correct one
      obtain ⟨session, p, hs, hp, hpend⟩ := h.verifying hst
      refine ⟨?_, ?_, fun h => (by cases h), fun h => (by cases h)⟩
      · refine authenticated_accept h.authenticated ⟨session, hs, ?_, ?_⟩
        · cases hpend with
          | queued old hb ho hno => exact absurd (by simp [hq]) hno
          | answered hb hans => rw [hp, hans (by simp [hq])]
        · cases hpend with
          | queued old hb ho hno => exact absurd (by simp [hq]) hno
          | answered hb hans => rw [h.fifo, hb, List.append_nil]
      · simp [Sys.react, h.fifo, Event.sent, Event.processed]
  | digit digit hst hl => exact auth_quiet h hsub rfl rfl (fun _ => hst) (fun h => by cases h)
  | clear_last hst => exact auth_quiet h hsub rfl rfl (fun _ => hst) (fun h => by cases h)
  | incorrect hst => exact auth_quiet h hsub rfl rfl (fun h => by cases h) (fun h => by cases h)
  | withdraw amount hst =>
      exact auth_quiet h hsub rfl rfl (fun h => by cases h) (fun h => by cases h)
  | get_balance hst => exact auth_quiet h hsub rfl rfl (fun h => by cases h) (fun h => by cases h)
  | ok hst => exact auth_quiet h hsub rfl rfl (fun h => by cases h) (fun h => by cases h)
  | denied hst => exact auth_quiet h hsub rfl rfl (fun h => by cases h) (fun h => by cases h)
  | cancel_withdrawal hst =>
      exact auth_quiet h hsub rfl rfl (fun h => by cases h) (fun h => by cases h)
  | balance amount hst =>
      exact auth_quiet h hsub rfl rfl (fun h => by cases h) (fun h => by cases h)
  | cancel hst => exact auth_quiet h hsub rfl rfl (fun h => by cases h) (fun h => by cases h)

/-- The same for its whole step, entering a state included. -/
theorem auth_atm {s t : Sys} (h : Auth s) (hG : NoStaleVerify s .atm)
    (hstep : s.atmStep = some t) : Auth t := by
  cases atmStep_cases hstep with
  | call he =>
      obtain ⟨hbank, hlog, hst⟩ := call_spec s.atm
      refine auth_quiet h id hlog (by rw [hbank]; rfl) (fun hg => ?_) (fun hv => ?_)
      · rcases hst with hst | ⟨-, hst⟩
        · exact hst.symm.trans hg
        · rw [hst] at hg
          cases hg
      · rcases hst with hst | ⟨-, hst⟩
        · exact hst.symm.trans hv
        · rw [hst] at hv
          cases hv
  | handle msg q r he hq hr => exact auth_handled h hq he hr hG
  | drop msg q he hq hd running =>
      refine auth_quiet h (fun hmem => ?_) rfl rfl id id
      rw [hq]
      exact List.mem_cons_of_mem msg hmem

/-- The bank's replies: `pin_verified` comes from a correct `verify_pin` only. -/
theorem auth_bank {s t : Sys} (h : Auth s) (hstep : s.bankStep = some t) : Auth t := by
  obtain ⟨msg, q, hq, rfl⟩ := bankStep_cases hstep
  -- a message that is no `verify_pin` leaves the pins and the requests as they are
  have hother : ∀ (reply : List AtmMsg) (ev : List Event) (b : Bank),
      msg.pin = none → .pin_verified ∉ reply → sentPins ev = [] → processedPins ev = [] →
      .pin_accepted ∉ ev → .card_accepted ∉ ev →
      Auth { s with bank := b, bank_queue := q, atm_queue := s.atm_queue ++ reply,
                    log := s.log ++ ev } := by
    intro reply ev b hpin hreply hsent hproc hacc hcard
    have hqueue : queuedPins q = queuedPins s.bank_queue := by
      simp [hq, queuedPins, hpin]
    refine ⟨authenticated_append h.authenticated hacc, ?_, fun hst => ?_, fun hst => ?_⟩
    · simp [hsent, hproc, hqueue, h.fifo]
    · obtain ⟨session, hs, hp⟩ := h.getting hst
      exact ⟨session ++ ev, session_append hs hcard, by simp [hp, hsent]⟩
    · obtain ⟨session, p, hs, hp, hpend⟩ := h.verifying hst
      refine ⟨session ++ ev, p, session_append hs hcard, by simp [hp, hsent], ?_⟩
      exact hpend.of_sublist hqueue (by simp [hreply])
  cases msg with
  | withdraw account amount =>
      by_cases hb : s.bank.balance ≥ amount
      · simp only [Sys.bankReact, Bank.handle, if_pos hb]
        exact hother [.withdraw_ok] [.debited amount] _ rfl (by simp) rfl rfl (by simp) (by simp)
      · simp only [Sys.bankReact, Bank.handle, if_neg hb]
        exact hother [.withdraw_denied] [] _ rfl (by simp) rfl rfl (by simp) (by simp)
  | get_balance account =>
      exact hother [.balance s.bank.balance] [] _ rfl (by simp) rfl rfl (by simp) (by simp)
  | withdrawal_processed account amount =>
      exact hother [] [] _ rfl (by simp) rfl rfl (by simp) (by simp)
  | cancel_withdrawal account amount =>
      exact hother [] [] _ rfl (by simp) rfl rfl (by simp) (by simp)
  | close_queue => exact hother [] [] _ rfl (by simp) rfl rfl (by simp) (by simp)
  | verify_pin account pin =>
      have hqueue : queuedPins s.bank_queue = pin :: queuedPins q := by
        simp [hq, queuedPins, BankMsg.pin]
      -- the reply, and that it is `pin_verified` only for the correct pin
      obtain ⟨m, heq, hm⟩ : ∃ m, s.bank.handle (.verify_pin account pin) =
          (s.bank, [m], [.pin_processed pin]) ∧ (m = .pin_verified → pin = correct_pin) := by
        by_cases hp : pin = correct_pin
        · exact ⟨.pin_verified, by simp [Bank.handle, hp], fun _ => hp⟩
        · exact ⟨.pin_incorrect, by simp [Bank.handle, hp], fun h => by cases h⟩
      simp only [Sys.bankReact, heq]
      refine ⟨authenticated_append h.authenticated (by simp), ?_, fun hst => ?_, fun hst => ?_⟩
      · simp [h.fifo, hqueue, Event.sent, Event.processed]
      · obtain ⟨session, hs, hp⟩ := h.getting hst
        exact ⟨session ++ [.pin_processed pin], session_append hs (by simp),
          by rw [sentPins_append, hp]; rfl⟩
      · obtain ⟨session, p, hs, hp, hpend⟩ := h.verifying hst
        refine ⟨session ++ [.pin_processed pin], p, session_append hs (by simp),
          by rw [sentPins_append, hp]; rfl, ?_⟩
        cases hpend with
        | answered hb hans => rw [hqueue] at hb; cases hb
        | queued old hb ho hno =>
            rw [hqueue] at hb
            cases old with
            | nil =>
                -- the session's own request is processed
                rw [List.nil_append, List.cons.injEq] at hb
                obtain ⟨rfl, hb⟩ := hb
                refine .answered hb fun hmem => ?_
                rcases List.mem_append.mp hmem with hmem | hmem
                · exact absurd hmem hno
                · exact hm (List.mem_singleton.mp hmem).symm
            | cons p' old =>
                -- an older request is processed, which was not the correct pin
                rw [List.cons_append, List.cons.injEq] at hb
                obtain ⟨rfl, hb⟩ := hb
                refine .queued old hb (fun hmem => ho (List.mem_cons_of_mem _ hmem)) ?_
                intro hmem
                rcases List.mem_append.mp hmem with hmem | hmem
                · exact hno hmem
                · exact ho (by rw [hm (List.mem_singleton.mp hmem).symm]; simp)

/-- Each party keeps the invariant. -/
theorem auth_step {s t : Sys} {a : Action} (h : Auth s) (hG : NoStaleVerify s a)
    (hstep : system.step s a = some t) : Auth t := by
  cases a with
  | user m =>
      obtain rfl := Option.some.inj hstep
      exact auth_push h (by simp)
  | close_atm =>
      obtain rfl := Option.some.inj hstep
      exact auth_push h (by simp)
  | close_bank =>
      obtain rfl := Option.some.inj hstep
      exact auth_close_bank h
  | atm => exact auth_atm h hG hstep
  | bank => exact auth_bank h hstep

/-! ## The result -/

/-- **ATM authentication**, over every run: if each `verify_pin` is sent while no
`pin_verified` and no correct `verify_pin` is left over, then in every state of
the run each move from `verifying_pin` to `wait_for_action` so far was made with
the session's own pin processed by the bank and correct. -/
theorem verify_pin_answered (as : List Action) (hG : system.Always NoStaleVerify system.init as) :
    system.Along Sys.Authenticated system.init as :=
  system.along_of_always (fun _ h => h.authenticated)
    (fun _ _ _ h hG hstep => auth_step h hG hstep) auth_init hG

/-- The customer enters a pin. -/
def digits (pin : Text) : List Action := pin.map fun c => .user (.digit_pressed c)

/-- A card is inserted and a pin entered, all taken by the ATM: each of the seven
messages is one entry of the state function and one handler. -/
def enterPin (account pin : Text) : List Action :=
  .user (.card_inserted account) :: digits pin ++ List.replicate (2 * (pin.length + 1)) .atm

/-- One customer with the correct pin, who is let in. -/
def oneSession : List Action := enterPin ['a'] correct_pin ++ [.bank, .atm, .atm]

theorem verify_pin_answered_oneSession :
    system.Along Sys.Authenticated system.init oneSession :=
  verify_pin_answered oneSession (by decide)

/-- The first customer enters the correct pin and cancels before the bank has
looked at it; the second enters a wrong one. -/
def cancelledSession : List Action :=
  enterPin ['a'] correct_pin ++ [.user .cancel_pressed, .atm, .atm, .atm] ++
    enterPin ['b'] ['0', '0', '0', '0', '0', '0'] ++ [.bank, .atm, .atm]

/-- The reply to the first customer's pin lets the second in, whose own request is
still in the bank's queue. -/
theorem verify_pin_stale :
    ∃ s, system.exec system.init cancelledSession = some s ∧ s.atm.state = .wait_for_action ∧
      s.atm.account = ['b'] ∧ queuedPins s.bank_queue = [['0', '0', '0', '0', '0', '0']] ∧
      ¬ s.Authenticated := by
  refine ⟨_, rfl, rfl, rfl, rfl, fun h => ?_⟩
  obtain ⟨session, ⟨before, hlog, hno⟩, hsent, hlen⟩ := h _ [] rfl
  exact absurd hlen (by decide)

end BoostNet.Atm
