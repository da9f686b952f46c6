import DigitalWallet.Lib.CppString
import Mathlib.Data.Finmap

namespace DigitalWallet

open Lib

inductive Code
  | kOk | kNotFound | kCorruption | kNotSupported | kInvalidArgument | kIOError
  | kMergeInProgress | kIncomplete | kShutdownInProgress | kTimedOut | kAborted
  | kBusy | kExpired | kTryAgain | kCompactionTooLarge | kColumnFamilyDropped
  deriving DecidableEq

structure Status where
  code : Code
  msg : String
  deriving DecidableEq

def Status.ok (s : Status) : Bool := s.code == .kOk

def Status.OK : Status := ⟨.kOk, ""⟩

def Status.NotFound : Status := ⟨.kNotFound, ""⟩

abbrev Failure := { s : Status // s.ok = false }

@[simp] theorem Status.ok_OK : Status.OK.ok = true := rfl

@[simp] theorem Status.ok_NotFound : Status.NotFound.ok = false := rfl

theorem Status.ok_kIOError (msg : String) : Status.ok ⟨.kIOError, msg⟩ = false := rfl

@[simp] theorem Failure.ok (s : Failure) : s.val.ok = false := s.property

/-- What the build takes from outside the repository or leaves to the reading
of `int`: the value an addition or subtraction of `int`s yields when its exact
result is the argument, the numbers `std::stoi` finds representable, and the
text of `Status::ToString`. -/
structure Platform where
  arith : Int → Int
  fits : Int → Bool
  statusText : Status → String

def fits32 (n : Int) : Bool := decide (-2 ^ 31 ≤ n ∧ n < 2 ^ 31)

def Platform.int32 (statusText : Status → String) : Platform where
  arith n := n.bmod (2 ^ 32)
  fits := fits32
  statusText := statusText

def Platform.exact (fits : Int → Bool) (statusText : Status → String) : Platform where
  arith n := n
  fits := fits
  statusText := statusText

abbrev AccountDB := Finmap (fun _ : String => String)

def AccountDB.get (db : AccountDB) (fault : Option Failure) (key out : String) : Status × String :=
  match fault with
  | some s => (s.val, out)
  | none =>
    match db.lookup key with
    | some value => (.OK, value)
    | none => (.NotFound, out)

-- `DB::Put`.  A failed one changes nothing
def AccountDB.put (db : AccountDB) (fault : Option Failure) (key value : String) :
    Status × AccountDB :=
  match fault with
  | some s => (s.val, db)
  | none => (.OK, db.insert key value)

structure Command where
  txId : String := ""
  account1 : String := ""
  account2 : String := ""
  amount : String := ""
  action : String := ""
  deriving DecidableEq

structure Event where
  action : String := ""
  account : String := ""
  amount : String := ""
  parentTxId : String := ""
  deriving DecidableEq

def Event.toString (e : Event) : String :=
  "Transaction ID: " ++ e.parentTxId ++ " Action: " ++ e.action ++
    " Account: " ++ e.account ++ " Amount: " ++ e.amount ++ "\n"

/-- The event log file: every text archive opened on it writes its own header
before its objects.  The file is absent while nothing has been written. -/
inductive LogEntry
  | header
  | event (e : Event)
  deriving DecidableEq

def LogEntry.event? : LogEntry → Option Event
  | .header => none
  | .event e => some e

def loggedEvents (log : List LogEntry) : List Event := log.filterMap LogEntry.event?

structure MessageQueue (T : Type) where
  messages : List T := []
  deriving DecidableEq

namespace MessageQueue

variable {T : Type}

def send (q : MessageQueue T) (msg : T) : MessageQueue T := ⟨q.messages ++ [msg]⟩

-- removes the last element; `none` is the wait for a non-empty queue
def receive (q : MessageQueue T) : Option (T × MessageQueue T) :=
  q.messages.getLast?.map fun msg => (msg, ⟨q.messages.dropLast⟩)

@[simp] theorem receive_send (q : MessageQueue T) (msg : T) :
    (q.send msg).receive = some (msg, q) := by
  simp [send, receive]

theorem receive_eq_some {q q' : MessageQueue T} {msg : T} :
    q.receive = some (msg, q') ↔ q = q'.send msg := by
  constructor
  · intro h
    simp only [receive, Option.map_eq_some_iff, Prod.mk.injEq] at h
    obtain ⟨m, hm, rfl, rfl⟩ := h
    cases q with
    | mk ms => simp only [send, mk.injEq]; exact (List.dropLast_append_getLast? m hm).symm
  · rintro rfl
    exact receive_send q' msg

theorem receive_eq_none {q : MessageQueue T} : q.receive = none ↔ q.messages = [] := by
  simp [receive]

end MessageQueue

inductive SeedFile
  | absent
  | archive (contents : Option Int)
  deriving DecidableEq

/-- How one opening of the seed file for writing goes.  Opening truncates, so
only `unopened` leaves the old contents.  A `lost` write fails when the stream is
closed, which no one sees. -/
inductive WriteOutcome
  | written | unopened | failed | lost | stopped
  deriving DecidableEq

structure SeedOutcomes where
  init : WriteOutcome := .written
  update : WriteOutcome := .written
  deriving DecidableEq

/-- How a call of `genAccountID` ends: with an identifier, with an exception,
with the process stopped, or in the signed overflow of `account_num++`, which
has no defined result. -/
inductive GenExit
  | returned (accountID : String)
  | threw
  | stopped
  | overflow
  deriving DecidableEq

namespace SeedFile

def present : SeedFile → Bool
  | .absent => false
  | .archive _ => true

def write (f : SeedFile) (o : WriteOutcome) (n : Int) : SeedFile :=
  match o with
  | .written => .archive (some n)
  | .unopened => f
  | .failed => .archive none
  | .lost => .archive none
  | .stopped => .archive none

def read : SeedFile → Option Int
  | .absent => none
  | .archive contents => contents

end SeedFile

def accountID (accountNum : Int) : String := "7" ++ Cpp.setw 8 '0' (Cpp.toString accountNum)

def generateSeedFile (o : WriteOutcome) (f : SeedFile) : WriteOutcome × SeedFile :=
  if f.present then (.written, f) else (o, f.write o 0)

def genAccountID (o : SeedOutcomes) (f : SeedFile) : GenExit × SeedFile :=
  match generateSeedFile o.init f with
  | (.stopped, f) => (.stopped, f)
  | (.unopened, f) => (.threw, f)
  | (.failed, f) => (.threw, f)
  | (_, f) =>
    match f.read with
    | none => (.threw, f)
    | some accountNum =>
      if accountNum = 2 ^ 31 - 1 then (.overflow, f)
      else
        match o.update with
        | .stopped => (.stopped, f.write .stopped (accountNum + 1))
        | .unopened => (.threw, f.write .unopened (accountNum + 1))
        | .failed => (.threw, f.write .failed (accountNum + 1))
        | o => (.returned (accountID (accountNum + 1)), f.write o (accountNum + 1))

theorem accountID_inj {m n : Int} (hm : 0 ≤ m) (hn : 0 ≤ n) (h : accountID m = accountID n) :
    m = n := by
  apply Cpp.setw_toString_inj 8 hm hn
  have := congrArg String.toList h
  simp only [accountID, String.toList_append, List.append_cancel_left_eq] at this
  exact String.toList_inj.mp this

end DigitalWallet
