/-
The ATM demonstration of Concurrent/day08-Actor: the actors `atm` and
`bank_machine`, their message types and their two FIFO queues.

An actor waits on its queue with a chain of handlers: a message that no handler
of the chain takes is dropped and the next one is tried, `close_queue` ends the
actor, and a handler's run is one step. The ATM's chain is that of its current
state, and which messages are dropped therefore depends on the state it happens
to be in when they reach the front. Replies carry no reference to the request
they answer.

`Machine.handle` is the table of the ATM's handlers and `Bank.handle` that of the
bank's. A handler's effect is a `Reaction`: the new local state and what it sends.
`Handled` lists what the ATM's table can do, and the invariants of the files above
this one are read off it.

The `log` of a system is a history the code does not keep: cards accepted, pins
sent and processed, the ATM's moves to `wait_for_action` from `verifying_pin`, and
the bank's debits. `hardware` is everything sent to the interface actor.

Strings are lists of characters. Amounts are natural numbers: the one subtraction
in the code is guarded, so `unsigned` never wraps.
-/
import BoostNet.Lts
import Mathlib.Tactic.Common

set_option autoImplicit false

namespace BoostNet.Atm

/-! ## Messages -/

/-- A `std::string`. -/
abbrev Text := List Char

/-- What the customer does at the ATM. -/
inductive UserMsg where
  | card_inserted (account : Text)
  | digit_pressed (digit : Char)
  | clear_last_pressed
  | cancel_pressed
  | withdraw_pressed (amount : Nat)
  | balance_pressed
  deriving DecidableEq

/-- The messages in the ATM's queue. -/
inductive AtmMsg where
  | user (m : UserMsg)
  | pin_verified
  | pin_incorrect
  | withdraw_ok
  | withdraw_denied
  | balance (amount : Nat)
  | close_queue
  deriving DecidableEq

/-- The messages in the bank's queue. -/
inductive BankMsg where
  | verify_pin (account pin : Text)
  | withdraw (account : Text) (amount : Nat)
  | get_balance (account : Text)
  | withdrawal_processed (account : Text) (amount : Nat)
  | cancel_withdrawal (account : Text) (amount : Nat)
  | close_queue
  deriving DecidableEq

/-- The messages the ATM sends to the interface hardware. -/
inductive HwMsg where
  | issue_money (amount : Nat)
  | display_insufficient_funds
  | display_withdrawal_cancelled
  | display_balance (amount : Nat)
  | display_withdrawal_options
  | display_pin_incorrect_message
  | display_enter_pin
  | display_enter_card
  | eject_card
  deriving DecidableEq

/-- The history. -/
inductive Event where
  | card_accepted
  | pin_sent (pin : Text)
  | pin_processed (pin : Text)
  | pin_accepted
  | debited (amount : Nat)
  deriving DecidableEq

/-! ## The ATM -/

/-- The state functions of `atm`. -/
inductive AtmState where
  | waiting_for_card
  | getting_pin
  | verifying_pin
  | wait_for_action
  | process_withdrawal
  | process_balance
  | done_processing
  deriving DecidableEq

/-- The members of `atm`. `entered` says that the state function is waiting in its
handler chain; otherwise `run` is about to call it. -/
structure Machine where
  state : AtmState := .waiting_for_card
  entered : Bool := false
  account : Text := []
  withdrawal_amount : Nat := 0
  pin : Text := []
  running : Bool := true
  deriving DecidableEq

/-- The effect of a step of the ATM. -/
structure Reaction where
  atm : Machine
  bank : List BankMsg := []
  hardware : List HwMsg := []
  log : List Event := []

/-- The handler returns and `run` calls the state function of `st`. -/
def Machine.goto (m : Machine) (st : AtmState) : Machine :=
  { m with state := st, entered := false }

/-- A state function up to its handler chain. `done_processing` has none. -/
def Machine.call (m : Machine) : Reaction :=
  match m.state with
  | .waiting_for_card => { atm := { m with entered := true }, hardware := [.display_enter_card] }
  | .wait_for_action =>
      { atm := { m with entered := true }, hardware := [.display_withdrawal_options] }
  | .done_processing => { atm := m.goto .waiting_for_card, hardware := [.eject_card] }
  | .getting_pin | .verifying_pin | .process_withdrawal | .process_balance =>
      { atm := { m with entered := true } }

/-- `pin_length`. -/
def pin_length : Nat := 6

/-! ### The handler chains of the state functions

`none` where no handler of the chain takes the message. -/

def Machine.waiting_for_card (m : Machine) : AtmMsg → Option Reaction
  | .user (.card_inserted account) =>
      some {
        atm := { m with account := account, pin := [] }.goto .getting_pin
        hardware := [.display_enter_pin]
        log := [.card_accepted] }
  | _ => none

def Machine.getting_pin (m : Machine) : AtmMsg → Option Reaction
  | .user (.digit_pressed digit) =>
      if (m.pin ++ [digit]).length = pin_length then
        some {
          atm := { m with pin := m.pin ++ [digit] }.goto .verifying_pin
          bank := [.verify_pin m.account (m.pin ++ [digit])]
          log := [.pin_sent (m.pin ++ [digit])] }
      else some { atm := { m with pin := m.pin ++ [digit] }.goto .getting_pin }
  | .user .clear_last_pressed =>
      some { atm := { m with pin := m.pin.dropLast }.goto .getting_pin }
  | .user .cancel_pressed => some { atm := m.goto .done_processing }
  | .user (.card_inserted _) | .user (.withdraw_pressed _) | .user .balance_pressed
  | .pin_verified | .pin_incorrect | .withdraw_ok | .withdraw_denied | .balance _
  | .close_queue => none

def Machine.verifying_pin (m : Machine) : AtmMsg → Option Reaction
  | .pin_verified => some { atm := m.goto .wait_for_action, log := [.pin_accepted] }
  | .pin_incorrect =>
      some {
        atm := m.goto .done_processing
        hardware := [.display_pin_incorrect_message] }
  | .user .cancel_pressed => some { atm := m.goto .done_processing }
  | _ => none

def Machine.wait_for_action (m : Machine) : AtmMsg → Option Reaction
  | .user (.withdraw_pressed amount) =>
      some {
        atm := { m with withdrawal_amount := amount }.goto .process_withdrawal
        bank := [.withdraw m.account amount] }
  | .user .balance_pressed =>
      some { atm := m.goto .process_balance, bank := [.get_balance m.account] }
  | .user .cancel_pressed => some { atm := m.goto .done_processing }
  | _ => none

def Machine.process_withdrawal (m : Machine) : AtmMsg → Option Reaction
  | .withdraw_ok =>
      some {
        atm := m.goto .done_processing
        bank := [.withdrawal_processed m.account m.withdrawal_amount]
        hardware := [.issue_money m.withdrawal_amount] }
  | .withdraw_denied =>
      some { atm := m.goto .done_processing, hardware := [.display_insufficient_funds] }
  | .user .cancel_pressed =>
      some {
        atm := m.goto .done_processing
        bank := [.cancel_withdrawal m.account m.withdrawal_amount]
        hardware := [.display_withdrawal_cancelled] }
  | _ => none

def Machine.process_balance (m : Machine) : AtmMsg → Option Reaction
  | .balance amount =>
      some { atm := m.goto .wait_for_action, hardware := [.display_balance amount] }
  | .user .cancel_pressed => some { atm := m.goto .done_processing }
  | _ => none

/-- The handler chain of the state function that waits. -/
def Machine.handle (m : Machine) (msg : AtmMsg) : Option Reaction :=
  match m.state with
  | .waiting_for_card => m.waiting_for_card msg
  | .getting_pin => m.getting_pin msg
  | .verifying_pin => m.verifying_pin msg
  | .wait_for_action => m.wait_for_action msg
  | .process_withdrawal => m.process_withdrawal msg
  | .process_balance => m.process_balance msg
  | .done_processing => none

/-! ## The bank -/

/-- The members of `bank_machine`. -/
structure Bank where
  balance : Nat := 199
  running : Bool := true
  deriving DecidableEq

/-- The pin `bank_machine` accepts. -/
def correct_pin : Text := ['5', '2', '1', '0', '2', '4']

/-- The bank's handlers: the bank afterwards, what it sends to the ATM, and the
history. `withdrawal_processed` and `cancel_withdrawal` only print. -/
def Bank.handle (b : Bank) : BankMsg → Bank × List AtmMsg × List Event
  | .verify_pin _ pin =>
      if pin = correct_pin then (b, [.pin_verified], [.pin_processed pin])
      else (b, [.pin_incorrect], [.pin_processed pin])
  | .withdraw _ amount =>
      if b.balance ≥ amount then
        ({ b with balance := b.balance - amount }, [.withdraw_ok], [.debited amount])
      else (b, [.withdraw_denied], [])
  | .get_balance _ => (b, [.balance b.balance], [])
  | .withdrawal_processed _ _ => (b, [], [])
  | .cancel_withdrawal _ _ => (b, [], [])
  | .close_queue => ({ b with running := false }, [], [])

/-! ## The two actors and their queues -/

structure Sys where
  atm : Machine := {}
  bank : Bank := {}
  atm_queue : List AtmMsg := []
  bank_queue : List BankMsg := []
  hardware : List HwMsg := []
  log : List Event := []
  deriving DecidableEq

/-- The ATM's step took effect `r`, and its queue is now `q`. -/
def Sys.react (s : Sys) (q : List AtmMsg) (r : Reaction) : Sys :=
  { s with
    atm := r.atm
    atm_queue := q
    bank_queue := s.bank_queue ++ r.bank
    hardware := s.hardware ++ r.hardware
    log := s.log ++ r.log }

/-- A step of the ATM: enter the state function, or take a message off the queue. -/
def Sys.atmStep (s : Sys) : Option Sys :=
  if s.atm.running = false then none
  else if s.atm.entered = false then some (s.react s.atm_queue s.atm.call)
  else
    match s.atm_queue with
    | [] => none
    | .close_queue :: q => some (s.react q { atm := { s.atm with running := false } })
    | msg :: q =>
        match s.atm.handle msg with
        | some r => some (s.react q r)
        | none => some (s.react q { atm := s.atm })

/-- The bank handled `msg`, and its queue is now `q`. -/
def Sys.bankReact (s : Sys) (msg : BankMsg) (q : List BankMsg) : Sys :=
  { s with
    bank := (s.bank.handle msg).1
    bank_queue := q
    atm_queue := s.atm_queue ++ (s.bank.handle msg).2.1
    log := s.log ++ (s.bank.handle msg).2.2 }

/-- A step of the bank: take a message off the queue and handle it. -/
def Sys.bankStep (s : Sys) : Option Sys :=
  if s.bank.running = false then none
  else
    match s.bank_queue with
    | [] => none
    | msg :: q => some (s.bankReact msg q)

inductive Action where
  /-- The customer presses something or inserts a card. -/
  | user (m : UserMsg)
  /-- `atm::done`. -/
  | close_atm
  /-- `bank_machine::done`. -/
  | close_bank
  | atm
  | bank
  deriving DecidableEq

def Sys.step (s : Sys) : Action → Option Sys
  | .user m => some { s with atm_queue := s.atm_queue ++ [.user m] }
  | .close_atm => some { s with atm_queue := s.atm_queue ++ [.close_queue] }
  | .close_bank => some { s with bank_queue := s.bank_queue ++ [.close_queue] }
  | .atm => s.atmStep
  | .bank => s.bankStep

def system : Lts Sys Action where
  init := {}
  step := Sys.step

/-! ## What the ATM's steps can do -/

/-- What a handler of the ATM does, by handler. -/
inductive Handled (m : Machine) : AtmMsg → Reaction → Prop where
  | card (account : Text) (h : m.state = .waiting_for_card) :
      Handled m (.user (.card_inserted account))
        { atm := { m with account := account, pin := [] }.goto .getting_pin
          hardware := [.display_enter_pin], log := [.card_accepted] }
  | digit (digit : Char) (h : m.state = .getting_pin)
      (hl : (m.pin ++ [digit]).length ≠ pin_length) :
      Handled m (.user (.digit_pressed digit))
        { atm := { m with pin := m.pin ++ [digit] }.goto .getting_pin }
  | last_digit (digit : Char) (h : m.state = .getting_pin)
      (hl : (m.pin ++ [digit]).length = pin_length) :
      Handled m (.user (.digit_pressed digit))
        { atm := { m with pin := m.pin ++ [digit] }.goto .verifying_pin
          bank := [.verify_pin m.account (m.pin ++ [digit])]
          log := [.pin_sent (m.pin ++ [digit])] }
  | clear_last (h : m.state = .getting_pin) :
      Handled m (.user .clear_last_pressed)
        { atm := { m with pin := m.pin.dropLast }.goto .getting_pin }
  | verified (h : m.state = .verifying_pin) :
      Handled m .pin_verified { atm := m.goto .wait_for_action, log := [.pin_accepted] }
  | incorrect (h : m.state = .verifying_pin) :
      Handled m .pin_incorrect
        { atm := m.goto .done_processing, hardware := [.display_pin_incorrect_message] }
  | withdraw (amount : Nat) (h : m.state = .wait_for_action) :
      Handled m (.user (.withdraw_pressed amount))
        { atm := { m with withdrawal_amount := amount }.goto .process_withdrawal
          bank := [.withdraw m.account amount] }
  | get_balance (h : m.state = .wait_for_action) :
      Handled m (.user .balance_pressed)
        { atm := m.goto .process_balance, bank := [.get_balance m.account] }
  | ok (h : m.state = .process_withdrawal) :
      Handled m .withdraw_ok
        { atm := m.goto .done_processing
          bank := [.withdrawal_processed m.account m.withdrawal_amount]
          hardware := [.issue_money m.withdrawal_amount] }
  | denied (h : m.state = .process_withdrawal) :
      Handled m .withdraw_denied
        { atm := m.goto .done_processing, hardware := [.display_insufficient_funds] }
  | cancel_withdrawal (h : m.state = .process_withdrawal) :
      Handled m (.user .cancel_pressed)
        { atm := m.goto .done_processing
          bank := [.cancel_withdrawal m.account m.withdrawal_amount]
          hardware := [.display_withdrawal_cancelled] }
  | balance (amount : Nat) (h : m.state = .process_balance) :
      Handled m (.balance amount)
        { atm := m.goto .wait_for_action, hardware := [.display_balance amount] }
  | cancel (h : m.state = .getting_pin ∨ m.state = .verifying_pin ∨
      m.state = .wait_for_action ∨ m.state = .process_balance) :
      Handled m (.user .cancel_pressed) { atm := m.goto .done_processing }

theorem handle_handled {m : Machine} {msg : AtmMsg} {r : Reaction}
    (h : m.handle msg = some r) : Handled m msg r := by
  unfold Machine.handle at h
  cases hst : m.state <;> simp only [hst] at h
  case waiting_for_card =>
    unfold Machine.waiting_for_card at h
    split at h <;> cases h
    exact .card _ hst
  case getting_pin =>
    unfold Machine.getting_pin at h
    split at h
    · next digit =>
        split_ifs at h with hl
        · cases h
          exact .last_digit digit hst hl
        · cases h
          exact .digit digit hst hl
    · cases h
      exact .clear_last hst
    · cases h
      exact .cancel (Or.inl hst)
    all_goals cases h
  case verifying_pin =>
    unfold Machine.verifying_pin at h
    split at h <;> cases h
    · exact .verified hst
    · exact .incorrect hst
    · exact .cancel (Or.inr (Or.inl hst))
  case wait_for_action =>
    unfold Machine.wait_for_action at h
    split at h <;> cases h
    · exact .withdraw _ hst
    · exact .get_balance hst
    · exact .cancel (Or.inr (Or.inr (Or.inl hst)))
  case process_withdrawal =>
    unfold Machine.process_withdrawal at h
    split at h <;> cases h
    · exact .ok hst
    · exact .denied hst
    · exact .cancel_withdrawal hst
  case process_balance =>
    unfold Machine.process_balance at h
    split at h <;> cases h
    · exact .balance _ hst
    · exact .cancel (Or.inr (Or.inr (Or.inr hst)))
  case done_processing => cases h

/-- What a step of the ATM does: it enters a state function, a handler takes the
message at the front, or that message is dropped (or closes the queue). -/
inductive AtmStep (s : Sys) : Sys → Prop where
  | call (he : s.atm.entered = false) : AtmStep s (s.react s.atm_queue s.atm.call)
  | handle (msg : AtmMsg) (q : List AtmMsg) (r : Reaction) (he : s.atm.entered = true)
      (hq : s.atm_queue = msg :: q) (hr : Handled s.atm msg r) : AtmStep s (s.react q r)
  | drop (msg : AtmMsg) (q : List AtmMsg) (he : s.atm.entered = true)
      (hq : s.atm_queue = msg :: q) (hd : s.atm.handle msg = none) (running : Bool) :
      AtmStep s (s.react q { atm := { s.atm with running := running } })

theorem atmStep_cases {s t : Sys} (h : s.atmStep = some t) : AtmStep s t := by
  unfold Sys.atmStep at h
  split_ifs at h with hrun hent
  · cases h
    exact .call hent
  · have hent' : s.atm.entered = true := by simpa using hent
    split at h
    · cases h
    · next q hq =>
        cases h
        refine .drop _ q hent' hq ?_ false
        unfold Machine.handle
        cases s.atm.state <;> rfl
    · next msg q _ hq =>
        split at h
        · next r hr =>
            cases h
            exact .handle msg q r hent' hq (handle_handled hr)
        · next hr =>
            cases h
            exact .drop msg q hent' hq hr s.atm.running

/-- Entering a state function sends nothing to the bank, and only
`done_processing` changes the state. -/
theorem call_spec (m : Machine) :
    m.call.bank = [] ∧ m.call.log = [] ∧
      (m.call.atm.state = m.state ∨
        (m.state = .done_processing ∧ m.call.atm.state = .waiting_for_card)) := by
  unfold Machine.call
  split <;> simp_all [Machine.goto]

theorem bankStep_cases {s t : Sys} (h : s.bankStep = some t) :
    ∃ msg q, s.bank_queue = msg :: q ∧ t = s.bankReact msg q := by
  unfold Sys.bankStep at h
  split_ifs at h
  split at h
  · cases h
  · next msg q hq =>
      cases h
      exact ⟨msg, q, hq, rfl⟩

end BoostNet.Atm
