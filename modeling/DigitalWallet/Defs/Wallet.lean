import DigitalWallet.Defs.Records
import DigitalWallet.Lib.Proc

namespace DigitalWallet

open Lib

inductive StateName
  | listen | validate | apply
  deriving DecidableEq

inductive Call
  | validateReceiver | validateSender
  | readSender | readReceiver | debit | credit
  | createAccount | getBalance
  deriving DecidableEq

/-- What the calls to the outside do while one request is processed: a failing
status for each database call, or `none` where it goes through, and whether the
event-log archive throws. -/
structure Outcomes where
  db : Call → Option Failure
  logThrows : Bool
  seed : SeedOutcomes

def Outcomes.succeed : Outcomes := ⟨fun _ => none, false, {}⟩

/-- Ghost record of what the code did, in order.  Reads and writes are recorded
when RocksDB answered OK. -/
inductive Action
  | generated (accountID : String)
  | sent (c : Command)
  | received (c : Command)
  | entered (s : StateName) (c : Command)
  | got (call : Call) (key value : String)
  | wrote (call : Call) (key value : String)
  | reported (c : Command) (s : Status)
  deriving DecidableEq

-- `Service` together with the database, the event log and the seed file.
-- `history` is ghost state, which no code reads
structure Wallet where
  accountDB : AccountDB
  eventLog : List LogEntry
  seedFile : SeedFile
  status : Status
  commandQueue : MessageQueue Command
  currentState : StateName
  commandToProcess : Command
  cvM : Bool
  aborted : Bool
  history : List Action
  deriving DecidableEq

def Wallet.start (db : AccountDB) (log : List LogEntry) (seed : SeedFile)
    (history : List Action) : Wallet where
  accountDB := db
  eventLog := log
  seedFile := seed
  status := .OK
  commandQueue := {}
  currentState := .listen
  commandToProcess := {}
  cvM := false
  aborted := false
  history := history

def Wallet.empty : Wallet := .start ∅ [] .absent []

def Wallet.record (w : Wallet) (a : Action) : Wallet := { w with history := w.history ++ [a] }

inductive Exn
  | stoi (e : Cpp.StoiError)
  | archive
  | stopped
  deriving DecidableEq

/-- The atomic operations.  A database call assigns `service._status` in the
same step; a later `ok()` or `ToString()` reads that field again. -/
inductive Op
  | get (call : Call) (key out : String)
  | put (call : Call) (key value : String)
  | ok
  | status
  | append (eventA eventB : Event)
  | readLog
  | currentState
  | setState (s : StateName)
  | receive
  | commandToProcess
  | send (c : Command)
  | wait
  | unlock
  | genAccountID
  | abort

@[reducible] def Op.Ret : Op → Type
  | .get _ _ _ => String
  | .put _ _ _ => Unit
  | .ok => Bool
  | .status => Status
  | .append _ _ => Bool
  | .readLog => List LogEntry
  | .currentState => StateName
  | .setState _ => Unit
  | .receive => Unit
  | .commandToProcess => Command
  | .send _ => Unit
  | .wait => Unit
  | .unlock => Unit
  | .genAccountID => Except Exn String
  | .abort => Unit

/-- `none` is an operation that has to wait: `receive` on an empty queue, and
the lock and `cv.wait` until the state is LISTEN.  It is also what becomes of
the overflow in `genAccountID`. -/
def perform (o : Outcomes) : (op : Op) → Wallet → Option (op.Ret × Wallet)
  | .get call key out, w =>
    let (status, value) := w.accountDB.get (o.db call) key out
    some (value, { w with
      status := status
      history := w.history ++ if status.ok then [.got call key value] else [] })
  | .put call key value, w =>
    let (status, db) := w.accountDB.put (o.db call) key value
    some ((), { w with
      accountDB := db
      status := status
      history := w.history ++ if status.ok then [.wrote call key value] else [] })
  | .ok, w => some (w.status.ok, w)
  | .status, w => some (w.status, w.record (.reported w.commandToProcess w.status))
  | .append eventA eventB, w =>
    if o.logThrows then some (false, w)
    else some (true, { w with eventLog := w.eventLog ++ [.header, .event eventA, .event eventB] })
  | .readLog, w => some (w.eventLog, w)
  | .currentState, w => some (w.currentState, w)
  | .setState s, w =>
    some ((), { w with
      currentState := s
      history := w.history ++ [.entered s w.commandToProcess] })
  | .receive, w =>
    w.commandQueue.receive.map fun (c, q) =>
      ((), { w with commandQueue := q, commandToProcess := c, history := w.history ++ [.received c] })
  | .commandToProcess, w => some (w.commandToProcess, w)
  | .send c, w =>
    some ((), { w with commandQueue := w.commandQueue.send c, history := w.history ++ [.sent c] })
  | .wait, w =>
    if w.cvM = false ∧ w.currentState = .listen then some ((), { w with cvM := true }) else none
  | .unlock, w => some ((), { w with cvM := false })
  | .genAccountID, w =>
    match genAccountID o.seed w.seedFile with
    | (.returned id, f) =>
      some (.ok id, { w with seedFile := f, history := w.history ++ [.generated id] })
    | (.threw, f) => some (.error .archive, { w with seedFile := f })
    | (.stopped, f) => some (.error .stopped, { w with seedFile := f, aborted := true })
    | (.overflow, _) => none
  | .abort, w => some ((), { w with aborted := true })

abbrev Prog := Proc Op Op.Ret Exn

namespace Prog

abbrev get (call : Call) (key out : String) : Prog String := .op (.get call key out) .ret
abbrev put (call : Call) (key value : String) : Prog Unit := .op (.put call key value) .ret
abbrev ok : Prog Bool := .op .ok .ret
abbrev status : Prog Status := .op .status .ret
abbrev append (eventA eventB : Event) : Prog Bool := .op (.append eventA eventB) .ret
abbrev readLog : Prog (List LogEntry) := .op .readLog .ret
abbrev currentState : Prog StateName := .op .currentState .ret
abbrev setState (s : StateName) : Prog Unit := .op (.setState s) .ret
abbrev receive : Prog Unit := .op .receive .ret
abbrev commandToProcess : Prog Command := .op .commandToProcess .ret
abbrev send (c : Command) : Prog Unit := .op (.send c) .ret
abbrev wait : Prog Unit := .op .wait .ret
abbrev unlock : Prog Unit := .op .unlock .ret
abbrev genAccountID : Prog (Except Exn String) := .op .genAccountID .ret
abbrev abort : Prog Unit := .op .abort .ret

def run (o : Outcomes) (p : Prog α) (w : Wallet) : Exit Exn α × Wallet := p.exec (perform o) w

end Prog

end DigitalWallet
