import DigitalWallet.Defs.Handlers
import DigitalWallet.Lib.Run

/-! The server: any number of handlers over one service, at two granularities. -/

namespace DigitalWallet

open Lib

/-- A handler between its atomic sections: a transfer sends, then holds `cv_m`;
an account creation draws its identifier under `seed_mutex`, then stores it. -/
inductive Handler
  | arrived (r : Request)
  | sent (c : Command)
  | generated (accountID : String) (startAmount : Int)
  | answered (c : Option Command) (r : Response)
  | lost
  deriving DecidableEq

namespace Handler

-- Crow turns an exception that leaves a handler into a 500; a stopped process
-- answers nothing
def finish (c : Option Command) : Exit Exn Response × Wallet → Option (Handler × Wallet)
  | (.returned r, w) => some (.answered c r, w)
  | (.threw .stopped, w) => some (.lost, w)
  | (.threw _, w) => some (.answered c ⟨500, ""⟩, w)
  | (.blocked, _) => none

def advance (P : Platform) (o : Outcomes) : Handler → Wallet → Option (Handler × Wallet)
  | .arrived (.balanceTransfer fromAccount toAccount amount txId), w =>
    match checkTransfer P fromAccount toAccount amount txId with
    | .error r => some (.answered none r, w)
    | .ok c => some (.sent c, ((Prog.send c).run o w).2)
  | .arrived (.createAccount startAmount), w =>
    match checkStartAmount P startAmount with
    | .error r => some (.answered none r, w)
    | .ok n =>
      match Prog.genAccountID.run o w with
      | (.returned (.ok accountID), w) => some (.generated accountID n, w)
      | (.returned (.error e), w) => finish none (.threw e, w)
      | (_, _) => none
  | .arrived (.getBalance accountID), w => finish none ((getBalance accountID).run o w)
  | .arrived .events, w => finish none (events.run o w)
  | .sent c, w => finish (some c) ((toggleAndReport P).run o w)
  | .generated accountID n, w => finish none ((storeAccount accountID n).run o w)
  | .answered _ _, _ => none
  | .lost, _ => none

def restart : Handler → Handler
  | .answered c r => .answered c r
  | _ => .lost

end Handler

inductive Label
  | arrive (r : Request)
  | advance (i : Nat) (o : Outcomes)
  | restart

abbrev System := Pool Wallet Handler

namespace System

def step (P : Platform) (s : System) : Label → Option System
  | .arrive r => if s.shared.aborted then none else some { s with threads := s.threads ++ [.arrived r] }
  | .advance i o => if s.shared.aborted then none else s.advance (Handler.advance P o) i
  | .restart =>
    some
      { shared := .start s.shared.accountDB s.shared.eventLog s.shared.seedFile s.shared.history
        threads := s.threads.map Handler.restart }

def init (w : Wallet) : System := ⟨w, []⟩

end System

def Op.callsDB : Op → Bool
  | .get _ _ _ => true
  | .put _ _ _ => true
  | _ => false

/-- A handler interleaved at the level of single operations.  `last` is ghost:
the status its own last database call stored. -/
structure Thread where
  request : Request
  prog : Prog Response
  last : Status

namespace Thread

def callsDB : Prog Response → Bool
  | .op o _ => o.callsDB
  | _ => false

def operate (o : Outcomes) (t : Thread) (w : Wallet) : Option (Thread × Wallet) :=
  (t.prog.advance (perform o) w).map fun (p, w') =>
    ({ t with prog := p, last := if callsDB t.prog then w'.status else t.last }, w')

def advance (t : Thread) (w : Wallet) : Option (Thread × Wallet) := t.operate .succeed w

def start (P : Platform) (w : Wallet) (r : Request) : Thread := ⟨r, handler P r, w.status⟩

end Thread

abbrev Threads := Pool Wallet Thread

namespace Threads

def step (s : Threads) (i : Nat) : Option Threads :=
  if s.shared.aborted then none else s.advance Thread.advance i

def init (P : Platform) (w : Wallet) (rs : List Request) : Threads := ⟨w, rs.map (Thread.start P w)⟩

def finished (s : Threads) : Prop := ∀ t ∈ s.threads, t.prog.finished = true

end Threads

end DigitalWallet
