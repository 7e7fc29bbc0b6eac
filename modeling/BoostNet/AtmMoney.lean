/-
The ATM's money (Concurrent/day08-Actor): what is dispensed against what the bank
debits.

The bank debits when it approves a `withdraw`; the ATM dispenses its own
`withdrawal_amount` when it meets a `withdraw_ok` in `process_withdrawal`. Two
things come between the two. A cancelled request is still approved, and the bank's
`cancel_withdrawal` handler gives nothing back. And the approval of a cancelled
request can be met by the next customer's request, which dispenses its own amount
against it: the replies to pins lag one session behind as soon as one customer
cancels in `verifying_pin`, and the replies to withdrawals lag with them.

The abstract model is a `Ledger`: the sums issued and debited, the approvals not
yet taken up, the requests waiting at the bank, and the amount the ATM is waiting
for. `step_ledger` says that the two actors only ever move it in the seven ways of
`LedgerStep`; the two results are invariants of the ledger.

* `issue_le_debit`: no more is dispensed than debited if no request is sent while
  an earlier one is unanswered. `issue_exceeds_debit` is the run with the lag.
* `balance_conserved`: nothing is charged that was not dispensed if a request is
  abandoned only when the bank has refused it or will. `cancel_charges` is the run
  in which the customer is charged for a cancelled withdrawal.
-/
import BoostNet.AtmAuth
import Mathlib.Algebra.BigOperators.Group.List.Basic
import Mathlib.Algebra.GroupWithZero.Nat

set_option autoImplicit false

namespace BoostNet.Atm

/-! ## The ledger -/

def HwMsg.issued : HwMsg → Nat
  | .issue_money amount => amount
  | .display_insufficient_funds | .display_withdrawal_cancelled | .display_balance _
  | .display_withdrawal_options | .display_pin_incorrect_message | .display_enter_pin
  | .display_enter_card | .eject_card => 0

def Event.debit : Event → Nat
  | .debited amount => amount
  | .card_accepted | .pin_sent _ | .pin_processed _ | .pin_accepted => 0

def BankMsg.request : BankMsg → Option Nat
  | .withdraw _ amount => some amount
  | .verify_pin _ _ | .get_balance _ | .withdrawal_processed _ _ | .cancel_withdrawal _ _
  | .close_queue => none

/-- The sum of the amounts of the `issue_money` messages sent. -/
def Sys.issued (s : Sys) : Nat := (s.hardware.map HwMsg.issued).sum

/-- The sum of the amounts subtracted from the balance. -/
def Sys.debited (s : Sys) : Nat := (s.log.map Event.debit).sum

/-- The amounts of the `withdraw` messages waiting at the bank, in order. -/
def requests (q : List BankMsg) : List Nat := q.filterMap BankMsg.request

@[simp] theorem requests_append (q r : List BankMsg) :
    requests (q ++ r) = requests q ++ requests r := List.filterMap_append

@[simp] theorem requests_singleton (m : BankMsg) : requests [m] = m.request.toList := by
  cases h : m.request <;> simp [requests, h]

theorem requests_cons (m : BankMsg) (q : List BankMsg) :
    requests (m :: q) = m.request.toList ++ requests q := by
  rw [← List.singleton_append, requests_append, requests_singleton]

/-- The amount of the request the ATM is waiting on, if it is. -/
def Machine.request (m : Machine) : Option Nat :=
  if m.state = .process_withdrawal then some m.withdrawal_amount else none

/-- The abstract model of the two actors. -/
structure Ledger where
  issued : Nat
  debited : Nat
  balance : Nat
  /-- Approvals the ATM has not taken up or dropped. -/
  approvals : Nat
  /-- Requests the bank has not answered. -/
  waiting : List Nat
  /-- The amount the ATM is waiting to dispense, if it is. -/
  request : Option Nat

/-- What the two actors have done, as a ledger. -/
def Sys.ledger (s : Sys) : Ledger where
  issued := s.issued
  debited := s.debited
  balance := s.bank.balance
  approvals := s.atm_queue.count .withdraw_ok
  waiting := requests s.bank_queue
  request := s.atm.request

/-- A request is made. -/
def Sys.sendsWithdraw (s : Sys) : Bool :=
  match s.atm.state, s.atm_queue with
  | .wait_for_action, .user (.withdraw_pressed _) :: _ => s.atm.entered
  | _, _ => false

/-- The ATM leaves `process_withdrawal` without dispensing. -/
def Sys.givesUp (s : Sys) : Bool :=
  match s.atm.state, s.atm_queue with
  | .process_withdrawal, .user .cancel_pressed :: _ => s.atm.entered
  | .process_withdrawal, .withdraw_denied :: _ => s.atm.entered
  | _, _ => false

/-- The ways the ledger moves. `send` and `give_up` remember the step they are. -/
inductive LedgerStep (s : Sys) (a : Action) (l : Ledger) : Ledger → Prop where
  | quiet : LedgerStep s a l l
  | send (w : Nat) (ha : a = .atm) (hs : s.sendsWithdraw = true) (hr : l.request = none) :
      LedgerStep s a l { l with waiting := l.waiting ++ [w], request := some w }
  | approve (w : Nat) (rest : List Nat) (hw : l.waiting = w :: rest) (hb : w ≤ l.balance) :
      LedgerStep s a l { l with
        waiting := rest
        balance := l.balance - w
        debited := l.debited + w
        approvals := l.approvals + 1 }
  | refuse (w : Nat) (rest : List Nat) (hw : l.waiting = w :: rest) (hb : l.balance < w) :
      LedgerStep s a l { l with waiting := rest }
  | issue (w n : Nat) (hr : l.request = some w) (hn : l.approvals = n + 1) :
      LedgerStep s a l { l with issued := l.issued + w, approvals := n, request := none }
  /-- An approval is dropped because the ATM is not waiting for one. -/
  | lose (n : Nat) (hr : l.request = none) (hn : l.approvals = n + 1) :
      LedgerStep s a l { l with approvals := n }
  | give_up (w : Nat) (ha : a = .atm) (hs : s.givesUp = true) (hr : l.request = some w) :
      LedgerStep s a l { l with request := none }

/-! ## The actors move the ledger so -/

/-- A handler that sends no money and no request, outside `process_withdrawal`. -/
theorem quiet_react {s : Sys} {q : List AtmMsg} {r : Reaction}
    (hq : q.count .withdraw_ok = s.atm_queue.count .withdraw_ok)
    (hb : requests r.bank = []) (hh : (r.hardware.map HwMsg.issued).sum = 0)
    (hl : (r.log.map Event.debit).sum = 0)
    (hs : s.atm.state ≠ .process_withdrawal) (hr : r.atm.state ≠ .process_withdrawal) :
    LedgerStep s .atm s.ledger (s.react q r).ledger := by
  have heq : (s.react q r).ledger = s.ledger := by
    simp [Sys.ledger, Machine.request, Sys.react, Sys.issued, Sys.debited, hq, hb, hh, hl, hs, hr]
  rw [heq]
  exact .quiet

theorem handled_ledger {s : Sys} {msg : AtmMsg} {q : List AtmMsg} {r : Reaction}
    (hq : s.atm_queue = msg :: q) (he : s.atm.entered = true) (hr : Handled s.atm msg r) :
    LedgerStep s .atm s.ledger (s.react q r).ledger := by
  have hcount : msg ≠ .withdraw_ok →
      q.count .withdraw_ok = s.atm_queue.count .withdraw_ok := by
    intro hne
    rw [hq, List.count_cons_of_ne hne]
  cases hr with
  | card account hst =>
      exact quiet_react (hcount (by simp)) rfl rfl rfl (by simp [hst]) (by simp [Machine.goto])
  | digit digit hst hl =>
      exact quiet_react (hcount (by simp)) rfl rfl rfl (by simp [hst]) (by simp [Machine.goto])
  | last_digit digit hst hl =>
      exact quiet_react (hcount (by simp)) rfl rfl rfl (by simp [hst]) (by simp [Machine.goto])
  | clear_last hst =>
      exact quiet_react (hcount (by simp)) rfl rfl rfl (by simp [hst]) (by simp [Machine.goto])
  | verified hst =>
      exact quiet_react (hcount (by simp)) rfl rfl rfl (by simp [hst]) (by simp [Machine.goto])
  | incorrect hst =>
      exact quiet_react (hcount (by simp)) rfl rfl rfl (by simp [hst]) (by simp [Machine.goto])
  | get_balance hst =>
      exact quiet_react (hcount (by simp)) rfl rfl rfl (by simp [hst]) (by simp [Machine.goto])
  | balance amount hst =>
      exact quiet_react (hcount (by simp)) rfl rfl rfl (by simp [hst]) (by simp [Machine.goto])
  | cancel hst =>
      refine quiet_react (hcount (by simp)) rfl rfl rfl ?_ (by simp [Machine.goto])
      rcases hst with hst | hst | hst | hst <;> simp [hst]
  | withdraw amount hst =>
      -- the request joins those that wait at the bank
      have hmove := LedgerStep.send (s := s) (a := .atm) (l := s.ledger) amount rfl
        (by simp [Sys.sendsWithdraw, hst, hq, he]) (by simp [Sys.ledger, Machine.request, hst])
      simpa [Sys.ledger, Machine.request, Sys.react, Sys.issued, Sys.debited, hq, hst, Machine.goto,
        BankMsg.request] using hmove
  | ok hst =>
      -- an approval, perhaps of another request, is taken up
      have hmove := LedgerStep.issue (s := s) (a := .atm) (l := s.ledger) s.atm.withdrawal_amount
        (q.count .withdraw_ok) (by simp [Sys.ledger, Machine.request, hst])
        (by simp [Sys.ledger, Machine.request, hq])
      simpa [Sys.ledger, Machine.request, Sys.react, Sys.issued, Sys.debited, hq, hst, Machine.goto,
        BankMsg.request, HwMsg.issued] using hmove
  | denied hst =>
      -- the ATM stops waiting; what it has sent stays
      have hmove := LedgerStep.give_up (s := s) (a := .atm) (l := s.ledger)
        s.atm.withdrawal_amount rfl (by simp [Sys.givesUp, hst, hq, he])
        (by simp [Sys.ledger, Machine.request, hst])
      simpa [Sys.ledger, Machine.request, Sys.react, Sys.issued, Sys.debited, hq, hst, Machine.goto,
        HwMsg.issued] using hmove
  | cancel_withdrawal hst =>
      have hmove := LedgerStep.give_up (s := s) (a := .atm) (l := s.ledger)
        s.atm.withdrawal_amount rfl (by simp [Sys.givesUp, hst, hq, he])
        (by simp [Sys.ledger, Machine.request, hst])
      simpa [Sys.ledger, Machine.request, Sys.react, Sys.issued, Sys.debited, hq, hst, Machine.goto,
        BankMsg.request, HwMsg.issued] using hmove

theorem call_ledger (s : Sys) : (s.react s.atm_queue s.atm.call).ledger = s.ledger := by
  cases hst : s.atm.state <;>
    simp [Sys.ledger, Machine.request, Sys.react, Sys.issued, Sys.debited, Machine.call, hst,
      Machine.goto, HwMsg.issued]

/-- A message no handler takes is dropped; an approval only outside
`process_withdrawal`, which takes it. -/
theorem drop_ledger {s : Sys} {msg : AtmMsg} {q : List AtmMsg} {running : Bool}
    (hq : s.atm_queue = msg :: q) (hd : s.atm.handle msg = none) :
    LedgerStep s .atm s.ledger (s.react q { atm := { s.atm with running := running } }).ledger := by
  by_cases hm : msg = .withdraw_ok
  · subst hm
    have hst : s.atm.state ≠ .process_withdrawal := by
      intro hst
      simp [Machine.handle, Machine.process_withdrawal, hst] at hd
    have hmove := LedgerStep.lose (s := s) (a := .atm) (l := s.ledger) (q.count .withdraw_ok)
      (by simp [Sys.ledger, Machine.request, hst]) (by simp [Sys.ledger, Machine.request, hq])
    simpa [Sys.ledger, Machine.request, Sys.react, Sys.issued, Sys.debited, hst] using hmove
  · have heq : (s.react q { atm := { s.atm with running := running } }).ledger = s.ledger := by
      simp [Sys.ledger, Machine.request, Sys.react, Sys.issued, Sys.debited, hq,
        List.count_cons_of_ne hm]
    rw [heq]
    exact .quiet

/-- A message of the bank's that is no `withdraw`. -/
theorem quiet_bank {s : Sys} {msg : BankMsg} {q : List BankMsg}
    (hq : s.bank_queue = msg :: q) (hr : msg.request = none)
    (hb : (s.bank.handle msg).1.balance = s.bank.balance)
    (hreply : .withdraw_ok ∉ (s.bank.handle msg).2.1)
    (hl : ((s.bank.handle msg).2.2.map Event.debit).sum = 0) :
    LedgerStep s .bank s.ledger (s.bankReact msg q).ledger := by
  have hw : requests s.bank_queue = requests q := by
    rw [hq, requests_cons, hr]
    rfl
  have hn : (s.bank.handle msg).2.1.count .withdraw_ok = 0 := List.count_eq_zero_of_not_mem hreply
  have heq : (s.bankReact msg q).ledger = s.ledger := by
    simp [Sys.ledger, Sys.bankReact, Sys.issued, Sys.debited, hw, hb, hn, hl]
  rw [heq]
  exact .quiet

theorem bank_ledger {s : Sys} {msg : BankMsg} {q : List BankMsg}
    (hq : s.bank_queue = msg :: q) :
    LedgerStep s .bank s.ledger (s.bankReact msg q).ledger := by
  cases msg with
  | withdraw account amount =>
      have hw : s.ledger.waiting = amount :: requests q := by
        simp [Sys.ledger, hq, requests_cons, BankMsg.request]
      by_cases hb : s.bank.balance ≥ amount
      · have hmove := LedgerStep.approve (s := s) (a := .bank) (l := s.ledger) amount
          (requests q) hw hb
        simpa [Sys.ledger, Sys.bankReact, Sys.issued, Sys.debited, Bank.handle, hb, Event.debit]
          using hmove
      · have hmove := LedgerStep.refuse (s := s) (a := .bank) (l := s.ledger) amount
          (requests q) hw (Nat.lt_of_not_le hb)
        simpa [Sys.ledger, Sys.bankReact, Sys.issued, Sys.debited, Bank.handle, hb] using hmove
  | verify_pin account pin =>
      by_cases hp : pin = correct_pin
      · exact quiet_bank hq rfl (by simp [Bank.handle, hp]) (by simp [Bank.handle, hp])
          (by simp [Bank.handle, hp, Event.debit])
      · exact quiet_bank hq rfl (by simp [Bank.handle, hp]) (by simp [Bank.handle, hp])
          (by simp [Bank.handle, hp, Event.debit])
  | get_balance account => exact quiet_bank hq rfl rfl (by simp [Bank.handle]) rfl
  | withdrawal_processed account amount => exact quiet_bank hq rfl rfl (by simp [Bank.handle]) rfl
  | cancel_withdrawal account amount => exact quiet_bank hq rfl rfl (by simp [Bank.handle]) rfl
  | close_queue => exact quiet_bank hq rfl rfl (by simp [Bank.handle]) rfl

/-- **The simulation**: every step of the two actors moves the ledger in one of the
seven ways. -/
theorem step_ledger {s t : Sys} {a : Action} (h : system.step s a = some t) :
    LedgerStep s a s.ledger t.ledger := by
  cases a with
  | user m =>
      cases h
      have heq : ({ s with atm_queue := s.atm_queue ++ [.user m] } : Sys).ledger = s.ledger := by
        simp [Sys.ledger, Sys.issued, Sys.debited]
      rw [heq]
      exact .quiet
  | close_atm =>
      cases h
      have heq : ({ s with atm_queue := s.atm_queue ++ [.close_queue] } : Sys).ledger =
          s.ledger := by
        simp [Sys.ledger, Sys.issued, Sys.debited]
      rw [heq]
      exact .quiet
  | close_bank =>
      cases h
      have heq : ({ s with bank_queue := s.bank_queue ++ [.close_queue] } : Sys).ledger =
          s.ledger := by
        simp [Sys.ledger, Sys.issued, Sys.debited, BankMsg.request]
      rw [heq]
      exact .quiet
  | atm =>
      cases atmStep_cases h with
      | call he =>
          rw [call_ledger]
          exact .quiet
      | handle msg q r he hq hr => exact handled_ledger hq he hr
      | drop msg q he hq hd running => exact drop_ledger hq hd
  | bank =>
      obtain ⟨msg, q, hq, rfl⟩ := bankStep_cases h
      exact bank_ledger hq

/-! ## No more dispensed than debited -/

/-- A request is sent only when no earlier one is unanswered: none waits at the bank,
and no approval waits at the ATM. -/
def NoUnanswered (s : Sys) (a : Action) : Prop :=
  a = .atm → s.sendsWithdraw = true →
    requests s.bank_queue = [] ∧ .withdraw_ok ∉ s.atm_queue

instance (s : Sys) (a : Action) : Decidable (NoUnanswered s a) :=
  inferInstanceAs (Decidable (_ → _ → _))

/-- What is debited but not dispensed covers the request in hand once it is
approved. -/
structure Covered (l : Ledger) : Prop where
  le : l.issued ≤ l.debited
  request : ∀ w, l.request = some w →
    (l.approvals = 0 ∧ (l.waiting = [w] ∨ l.waiting = [])) ∨
      (l.approvals = 1 ∧ l.waiting = [] ∧ l.issued + w ≤ l.debited)

theorem covered_step {s : Sys} {a : Action} {l : Ledger} (hc : Covered l)
    (hempty : a = .atm → s.sendsWithdraw = true → l.waiting = [] ∧ l.approvals = 0)
    {l' : Ledger} (h : LedgerStep s a l l') : Covered l' := by
  obtain ⟨hle, hreq⟩ := hc
  cases h with
  | quiet => exact ⟨hle, hreq⟩
  | send w ha hs hr =>
      -- nothing is unanswered, so this request is the only one
      obtain ⟨hw, hn⟩ := hempty ha hs
      refine ⟨hle, fun w' hw' => Or.inl ⟨hn, Or.inl ?_⟩⟩
      rw [Option.some.injEq] at hw'
      rw [hw, hw', List.nil_append]
  | approve w rest hw hb =>
      -- the only request that waits is the ATM's own: its amount is now debited
      refine ⟨Nat.le_add_right_of_le hle, fun w' hw' => Or.inr ?_⟩
      rcases hreq w' hw' with ⟨hn, hwait | hwait⟩ | ⟨-, hwait, -⟩
      · rw [hw, List.cons.injEq] at hwait
        obtain ⟨rfl, rfl⟩ := hwait
        exact ⟨by simp [hn], rfl, Nat.add_le_add_right hle w⟩
      · simp [hw] at hwait
      · simp [hw] at hwait
  | refuse w rest hw hb =>
      refine ⟨hle, fun w' hw' => Or.inl ?_⟩
      rcases hreq w' hw' with ⟨hn, hwait | hwait⟩ | ⟨-, hwait, -⟩
      · rw [hw, List.cons.injEq] at hwait
        exact ⟨hn, Or.inr hwait.2⟩
      · simp [hw] at hwait
      · simp [hw] at hwait
  | issue w n hr hn =>
      refine ⟨?_, fun w' hw' => by simp at hw'⟩
      -- there is an approval to take up, so the request's amount is covered
      rcases hreq w hr with ⟨hzero, -⟩ | ⟨-, -, hcov⟩
      · omega
      · exact hcov
  | lose n hr hn => exact ⟨hle, fun w' hw' => by simp [hr] at hw'⟩
  | give_up w ha hs hr => exact ⟨hle, fun w' hw' => by simp at hw'⟩

/-- **No more is dispensed than debited**, in every state of every run in which no request is sent
while an earlier one is unanswered. A reply carries nothing that says which request it answers, so
that the reply to a cancelled one may pay for the next. -/
theorem issue_le_debit (as : List Action) (h : system.Always NoUnanswered system.init as) :
    system.Along (fun s => s.issued ≤ s.debited) system.init as := by
  refine system.along_of_always (I := fun s => Covered s.ledger) (fun s hc => hc.le) ?_ ?_ h
  · intro s a t hc hG hstep
    refine covered_step hc (fun ha hs => ?_) (step_ledger hstep)
    obtain ⟨hwait, hok⟩ := hG ha hs
    exact ⟨hwait, List.count_eq_zero_of_not_mem hok⟩
  · exact ⟨Nat.le_refl _, fun w hw => by cases hw⟩

/-- A customer is let in and asks for `amount`: the bank handles the pin and the ATM
the reply and the request. -/
def requestMoney (account : Text) (amount : Nat) : List Action :=
  enterPin account correct_pin ++ [.bank, .atm, .atm, .user (.withdraw_pressed amount), .atm, .atm]

/-- The request is approved and dispensed. -/
def oneWithdrawal : List Action := requestMoney ['a'] 50 ++ [.bank, .atm, .atm]

theorem issue_le_debit_oneWithdrawal :
    system.Along (fun s => s.issued ≤ s.debited) system.init oneWithdrawal :=
  issue_le_debit oneWithdrawal (by decide)

/-- The first customer cancels in `verifying_pin`, which leaves every later session
one reply behind; the second asks for 50 and cancels; the third asks for 100. -/
def laggingReplies : List Action :=
  enterPin ['a'] correct_pin ++ [.user .cancel_pressed, .atm, .atm, .atm] ++
    requestMoney ['b'] 50 ++ [.user .cancel_pressed, .atm, .atm, .atm] ++
    requestMoney ['c'] 100 ++ [.bank, .atm, .atm]

/-- The approval of the cancelled 50 dispenses 100. -/
theorem issue_exceeds_debit :
    ∃ s, system.exec system.init laggingReplies = some s ∧ s.issued = 100 ∧ s.debited = 50 :=
  ⟨_, rfl, rfl, rfl⟩

/-! ## Nothing charged that was not dispensed -/

/-- Both queues are empty and the ATM waits for a card. -/
def Sys.Settled (s : Sys) : Prop :=
  s.atm_queue = [] ∧ s.bank_queue = [] ∧ s.atm.state = .waiting_for_card

/-- What left the account was dispensed. -/
def Sys.Conserved (s : Sys) : Prop :=
  s.bank.balance + s.issued = system.init.bank.balance

instance (s : Sys) : Decidable s.Conserved := inferInstanceAs (Decidable (_ = _))

/-- A request is abandoned only when no approval waits at the ATM and the bank will
refuse every request that waits there. -/
def NoApprovalAbandoned (s : Sys) (a : Action) : Prop :=
  a = .atm → s.givesUp = true →
    .withdraw_ok ∉ s.atm_queue ∧ ∀ w ∈ requests s.bank_queue, s.bank.balance < w

instance (s : Sys) (a : Action) : Decidable (NoApprovalAbandoned s a) :=
  inferInstanceAs (Decidable (_ → _ → _))

/-- Every waiting request is one the bank will refuse. -/
def Ledger.Refused (l : Ledger) (ws : List Nat) : Prop := ∀ w ∈ ws, l.balance < w

/-- Debits and dispensed money differ by the approved request in hand only. -/
structure Balanced (l : Ledger) : Prop where
  total : l.balance + l.debited = system.init.bank.balance
  idle : l.request = none → l.approvals = 0 ∧ l.issued = l.debited ∧ l.Refused l.waiting
  request : ∀ w, l.request = some w →
    (l.approvals = 0 ∧ l.issued = l.debited ∧
        ((∃ old, l.waiting = old ++ [w] ∧ l.Refused old) ∨ l.Refused l.waiting)) ∨
      (l.approvals = 1 ∧ l.issued + w = l.debited ∧ l.Refused l.waiting)

/-- A waiting request the bank can approve is the one the ATM is waiting on, and it
is the only one. -/
theorem Balanced.approvable {l : Ledger} (hb : Balanced l) {w : Nat} {rest : List Nat}
    (hw : l.waiting = w :: rest) (hle : w ≤ l.balance) :
    l.request = some w ∧ rest = [] ∧ l.approvals = 0 ∧ l.issued = l.debited := by
  have hnot : ¬ l.Refused l.waiting := by
    intro hall
    have hlt := hall w (by rw [hw]; exact List.mem_cons_self)
    omega
  cases hr : l.request with
  | none => exact absurd (hb.idle hr).2.2 hnot
  | some w' =>
      rcases hb.request w' hr with ⟨hn, heq, ⟨old, hold, hall⟩ | hall⟩ | ⟨-, -, hall⟩
      · cases old with
        | nil =>
            rw [hw, List.nil_append, List.cons.injEq] at hold
            obtain ⟨rfl, rfl⟩ := hold
            exact ⟨rfl, rfl, hn, heq⟩
        | cons v old =>
            rw [hw, List.cons_append, List.cons.injEq] at hold
            obtain ⟨rfl, -⟩ := hold
            have hlt := hall w List.mem_cons_self
            omega
      · exact absurd hall hnot
      · exact absurd hall hnot

theorem balanced_step {s : Sys} {a : Action} {l : Ledger} (hb : Balanced l)
    (hrefuse : a = .atm → s.givesUp = true → l.approvals = 0 ∧ l.Refused l.waiting)
    {l' : Ledger} (h : LedgerStep s a l l') : Balanced l' := by
  cases h with
  | quiet => exact hb
  | send w ha hs hr =>
      -- what waits already will be refused
      obtain ⟨hn, heq, hall⟩ := hb.idle hr
      refine ⟨hb.total, fun h => (by cases h), fun w' hw' => ?_⟩
      rw [Option.some.injEq] at hw'
      subst hw'
      exact Or.inl ⟨hn, heq, Or.inl ⟨l.waiting, rfl, hall⟩⟩
  | approve w rest hw hle =>
      obtain ⟨hr, rfl, hn, heq⟩ := hb.approvable hw hle
      have htotal := hb.total
      refine ⟨?_, fun h => ?_, fun w' hw' => ?_⟩
      · show l.balance - w + (l.debited + w) = system.init.bank.balance
        omega
      · rw [show l.request = none from h] at hr
        cases hr
      · obtain rfl : w = w' := Option.some.inj (hr.symm.trans hw')
        refine Or.inr ⟨by simp [hn], by simp [heq], fun v hv => ?_⟩
        cases hv
  | refuse w rest hw hlt =>
      -- the balance stays, so what would be refused still is
      have htail : l.Refused l.waiting → l.Refused rest := by
        intro hall v hv
        exact hall v (by rw [hw]; exact List.mem_cons_of_mem w hv)
      refine ⟨hb.total, fun h => ?_, fun w' hw' => ?_⟩
      · obtain ⟨hn, heq, hall⟩ := hb.idle h
        exact ⟨hn, heq, htail hall⟩
      · rcases hb.request w' hw' with ⟨hn, heq, ⟨old, hold, hall⟩ | hall⟩ | ⟨hn, heq, hall⟩
        · refine Or.inl ⟨hn, heq, ?_⟩
          cases old with
          | nil =>
              rw [hw, List.nil_append, List.cons.injEq] at hold
              apply Or.inr
              intro v hv
              rw [show rest = [] from hold.2] at hv
              cases hv
          | cons u old =>
              rw [hw, List.cons_append, List.cons.injEq] at hold
              exact Or.inl ⟨old, hold.2, fun v hv => hall v (List.mem_cons_of_mem u hv)⟩
        · exact Or.inl ⟨hn, heq, Or.inr (htail hall)⟩
        · exact Or.inr ⟨hn, heq, htail hall⟩
  | issue w n hr hn =>
      rcases hb.request w hr with ⟨hzero, -⟩ | ⟨hone, heq, hall⟩
      · omega
      · exact ⟨hb.total, fun _ => ⟨by simp only; omega, heq, hall⟩, fun w' hw' => by cases hw'⟩
  | lose n hr hn =>
      obtain ⟨hzero, -⟩ := hb.idle hr
      omega
  | give_up w ha hs hr =>
      -- no approval is or will be there to be missed
      obtain ⟨hzero, hall⟩ := hrefuse ha hs
      refine ⟨hb.total, fun _ => ⟨hzero, ?_, hall⟩, fun w' hw' => by cases hw'⟩
      rcases hb.request w hr with ⟨-, heq, -⟩ | ⟨hone, -⟩
      · exact heq
      · omega

/-- **Nothing is charged that was not dispensed**, in every settled state of every run in which a
request is abandoned only when the bank has refused it or will. The handler of `cancel_withdrawal`
is empty: a debit that was made stays made. -/
theorem balance_conserved (as : List Action)
    (h : system.Always NoApprovalAbandoned system.init as) :
    system.Along (fun s => s.Settled → s.Conserved) system.init as := by
  refine system.along_of_always (I := fun s => Balanced s.ledger) ?_ ?_ ?_ h
  · rintro s hb ⟨-, -, hst⟩
    obtain ⟨-, heq, -⟩ := hb.idle (by simp [Sys.ledger, Machine.request, hst])
    have htotal := hb.total
    show s.bank.balance + s.issued = system.init.bank.balance
    rw [show s.issued = s.debited from heq]
    exact htotal
  · intro s a t hb hG hstep
    refine balanced_step hb (fun ha hs => ?_) (step_ledger hstep)
    obtain ⟨hok, hall⟩ := hG ha hs
    exact ⟨List.count_eq_zero_of_not_mem hok, hall⟩
  · exact ⟨rfl, fun _ => ⟨rfl, rfl, fun w hw => by cases hw⟩, fun w hw => by cases hw⟩

/-- The customer leaves and the queues run empty. -/
def settledWithdrawal : List Action := oneWithdrawal ++ [.atm, .bank]

theorem balance_conserved_settledWithdrawal :
    system.Along (fun s => s.Settled → s.Conserved) system.init settledWithdrawal :=
  balance_conserved settledWithdrawal (by decide)

/-- A withdrawal of 50 is cancelled before the bank has looked at it. -/
def cancelledWithdrawal : List Action :=
  requestMoney ['a'] 50 ++
    [.user .cancel_pressed, .bank, .atm, .atm, .atm, .atm, .atm, .bank]

/-- The bank approves the cancelled request and keeps the money. -/
theorem cancel_charges :
    ∃ s, system.exec system.init cancelledWithdrawal = some s ∧ s.Settled ∧
      s.issued = 0 ∧ s.bank.balance = 149 ∧ ¬ s.Conserved :=
  ⟨_, rfl, ⟨rfl, rfl, rfl⟩, rfl, rfl, by decide⟩

end BoostNet.Atm
