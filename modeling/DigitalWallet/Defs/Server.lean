import DigitalWallet.Defs.System

namespace DigitalWallet

open Lib

def Thread.appends (t : Thread) : Bool :=
  match t.prog with
  | .op (.append _ _) _ => true
  | _ => false

def Thread.testing (t : Thread) : Bool :=
  match t.prog with
  | .op .ok _ => true
  | _ => false

def Thread.answer (t : Thread) : Option Response :=
  match t.prog with
  | .ret r => some r
  | _ => none

/-- A client connects, a handler does its next operation, or the process is
killed and started again.  A kill in the middle of an append leaves whatever log
it names; one in the middle of a write to the seed file comes after a `stopped`
outcome of that write. -/
inductive Act
  | arrive (r : Request)
  | operate (i : Nat) (o : Outcomes)
  | kill (log : Option (List LogEntry))

namespace Threads

def restarted (w : Wallet) (log : List LogEntry) : Threads :=
  ⟨.start w.accountDB log w.seedFile w.history, []⟩

def act (P : Platform) (s : Threads) : Act → Option Threads
  | .arrive r =>
    if s.shared.aborted then none
    else some { s with threads := s.threads ++ [.start P s.shared r] }
  | .operate i o => if s.shared.aborted then none else s.advance (Thread.operate o) i
  | .kill none => some (restarted s.shared s.shared.eventLog)
  | .kill (some log) =>
    if s.threads.any Thread.appends then some (restarted s.shared log) else none

end Threads

/-- Every test of `service._status` by a handler of such a request finds what the
handler's own last database call stored. -/
def Act.TestsOwn (own : Request → Bool) (s : Threads) : Act → Prop
  | .operate i _ => ∀ t ∈ s.threads[i]?, own t.request = true → t.testing = true →
      s.shared.status.ok = t.last.ok
  | _ => True

instance (own : Request → Bool) (s : Threads) : ∀ a, Decidable (Act.TestsOwn own s a)
  | .operate i _ => inferInstanceAs (Decidable (∀ t ∈ s.threads[i]?, own t.request = true →
      t.testing = true → s.shared.status.ok = t.last.ok))
  | .arrive _ => isTrue trivial
  | .kill _ => isTrue trivial

end DigitalWallet
