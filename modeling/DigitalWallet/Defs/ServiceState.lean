import DigitalWallet.Defs.Wallet

namespace DigitalWallet

open Lib

variable (P : Platform)

def stoi (s : String) : Prog Int :=
  match Cpp.stoi P.fits s with
  | .ok n => .ret n
  | .error e => .throw (.stoi e)

def Command.eventA (command : Command) : Event where
  account := command.account1
  amount := "-" ++ command.amount
  action := command.action
  parentTxId := command.txId

def Command.eventB (command : Command) : Event where
  account := command.account2
  amount := "+" ++ command.amount
  action := command.action
  parentTxId := command.txId

@[simp] theorem Command.eventA_account (c : Command) : c.eventA.account = c.account1 := rfl

@[simp] theorem Command.eventB_account (c : Command) : c.eventB.account = c.account2 := rfl

-- the second half of `ServiceApply::process`, from the first `Put` on
def ServiceApply.update (eventA eventB : Event) (balance1 balance2 : Int) : Prog Unit := do
  Prog.put .debit eventA.account (Cpp.toString balance1)
  if !(← Prog.ok) then
    return ← Prog.setState .listen
  Prog.put .credit eventB.account (Cpp.toString balance2)
  if !(← Prog.ok) then
    return ← Prog.setState .listen
  if !(← Prog.append eventA eventB) then
    .throw .archive
  Prog.setState .listen

def ServiceApply.process : Prog Unit := do
  let command ← Prog.commandToProcess
  let eventA := command.eventA
  let eventB := command.eventB
  let balance ← Prog.get .readSender eventA.account ""
  if !(← Prog.ok) then
    return ← Prog.setState .listen
  let accountBalanceA ← stoi P balance
  let balance ← Prog.get .readReceiver eventB.account balance
  if !(← Prog.ok) then
    return ← Prog.setState .listen
  let accountBalanceB ← stoi P balance
  let balance1 := P.arith (accountBalanceA - (← stoi P command.amount))
  let balance2 := P.arith (accountBalanceB + (← stoi P command.amount))
  update eventA eventB balance1 balance2

/-- `service->process()` right after `setState(ServiceApply)` dispatches to
`ServiceApply::process`. -/
def ServiceValidate.process : Prog Unit := do
  let command ← Prog.commandToProcess
  let balance ← Prog.get .validateReceiver command.account2 ""
  if !(← Prog.ok) then
    return ← Prog.setState .listen
  let balance ← Prog.get .validateSender command.account1 balance
  if !(← Prog.ok) then
    return ← Prog.setState .listen
  if (← stoi P balance) < (← stoi P command.amount) then
    return ← Prog.setState .listen
  if command.action == "TRANSFER" then
    Prog.setState .apply
    return ← ServiceApply.process P
  Prog.setState .listen

def ServiceListen.toggle : Prog Unit := do
  Prog.receive
  Prog.setState .validate
  ServiceValidate.process P

-- VALIDATE and APPLY have an empty `toggle`
def Service.toggle : Prog Unit := do
  match ← Prog.currentState with
  | .listen => ServiceListen.toggle P
  | .validate => pure ()
  | .apply => pure ()

end DigitalWallet
