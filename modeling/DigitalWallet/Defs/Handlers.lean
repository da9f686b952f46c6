import DigitalWallet.Defs.ServiceState

/-! `main.cpp`: the endpoint handlers.  A parameter that the URL does not carry
is `none`; the transaction id stands for the draw of the UUID generator. -/

namespace DigitalWallet

open Lib

structure Response where
  code : Nat := 200
  body : String
  deriving DecidableEq

inductive Request
  | createAccount (startAmount : Option String)
  | balanceTransfer (fromAccount toAccount amount : Option String) (txId : String)
  | getBalance (accountID : Option String)
  | events
  deriving DecidableEq

variable (P : Platform)

def checkStartAmount : Option String → Except Response Int
  | none => .error ⟨400, "Missing required parameter: startAmount\n"⟩
  | some startAmountParam =>
    match Cpp.stoi P.fits startAmountParam with
    | .error _ => .error ⟨400, "Invalid startAmount: must be an integer\n"⟩
    | .ok startAmount =>
      if startAmount < 0 then .error ⟨400, "Invalid startAmount: must not be negative\n"⟩
      else .ok startAmount

-- the rest of `create_account` once it has its identifier.  A failed `assert`
-- stops the process
def storeAccount (accountID : String) (startAmount : Int) : Prog Response := do
  let value := Cpp.toString startAmount
  Prog.put .createAccount accountID value
  if !(← Prog.ok) then
    Prog.abort
    .throw .stopped
  return { body := "Account: " ++ accountID ++ " : Balance: " ++ value ++ "\n" }

def createAccount (startAmountParam : Option String) : Prog Response :=
  match checkStartAmount P startAmountParam with
  | .error response => return response
  | .ok startAmount => do
    match ← Prog.genAccountID with
    | .error e => .throw e
    | .ok accountID => storeAccount accountID startAmount

def checkTransfer (fromAccount toAccount amount : Option String) (txId : String) :
    Except Response Command :=
  match fromAccount, toAccount, amount with
  | some fromAccount, some toAccount, some amountStr =>
    match Cpp.stoi P.fits amountStr with
    | .error _ => .error ⟨400, "Invalid amount: must be an integer\n"⟩
    | .ok amount =>
      if amount ≤ 0 then .error ⟨400, "Invalid amount: must be a positive integer\n"⟩
      else .ok ⟨txId, fromAccount, toAccount, Cpp.toString amount, "TRANSFER"⟩
  | _, _, _ => .error ⟨400, "Missing required parameters: fromAccount, toAccount, amount\n"⟩

def toggleAndReport : Prog Response := do
  Prog.wait
  Proc.ensuring
    (do
      Service.toggle P
      let status ← Prog.status
      return { body := "Return Status: " ++ P.statusText status ++ "\n" })
    Prog.unlock

def balanceTransfer (fromAccount toAccount amount : Option String) (txId : String) :
    Prog Response :=
  match checkTransfer P fromAccount toAccount amount txId with
  | .error response => return response
  | .ok command => do
    Prog.send command
    toggleAndReport P

def getBalance : Option String → Prog Response
  | none => return { body := "Missing required parameter: accountID\n" }
  | some accountID => do
    let value ← Prog.get .getBalance accountID ""
    let os :=
      if ← Prog.ok then "Account: " ++ accountID ++ " : Balance: " ++ value ++ "\n" else ""
    let os := if !(← Prog.ok) then os ++ "Account not found\n" else os
    return { body := os }

-- one header is read, then the two events asked for
def readEvents : List LogEntry → Except Exn (Event × Event)
  | [] => .ok ({}, {})
  | .header :: .event event1 :: .event event2 :: _ => .ok (event1, event2)
  | _ => .error .archive

def events : Prog Response := do
  match readEvents (← Prog.readLog) with
  | .error e => .throw e
  | .ok (event1, event2) =>
    return { body := event1.toString ++ "\n" ++ event2.toString ++ "\n" }

def handler : Request → Prog Response
  | .createAccount startAmount => createAccount P startAmount
  | .balanceTransfer fromAccount toAccount amount txId =>
    balanceTransfer P fromAccount toAccount amount txId
  | .getBalance accountID => getBalance accountID
  | .events => events

def serve (w : Wallet) (r : Request) : Wallet := ((handler P r).run .succeed w).2

def serveAll (w : Wallet) (rs : List Request) : Wallet := rs.foldl (serve P) w

end DigitalWallet
