import DigitalWallet.Laws.Invariant

namespace DigitalWallet

open Lib

inductive QueueCall (T : Type)
  | send (msg : T)
  | receive

structure QueueRun (T : Type) where
  queue : MessageQueue T := {}
  sent : List T := []
  received : List T := []

def QueueRun.step {T : Type} (s : QueueRun T) : QueueCall T → Option (QueueRun T)
  | .send msg => some ⟨s.queue.send msg, s.sent ++ [msg], s.received⟩
  | .receive => s.queue.receive.map fun (msg, q) => ⟨q, s.sent, s.received ++ [msg]⟩

def Latest {T : Type} (sent received : List T) (msg : T) (rest : List T) : Prop :=
  ∃ before after earlier, sent = before ++ msg :: after ∧ received.Perm (earlier ++ after) ∧
    before.Perm (earlier ++ rest)

/-- The queued messages cut the sent ones into layers that have all been
received. -/
inductive Layers {T : Type} : List T → List T → List T → Prop
  | base {sent received} : sent.Perm received → Layers sent received []
  | layer {before after earlier received queue msg} : Layers before earlier queue →
      received.Perm (earlier ++ after) →
      Layers (before ++ msg :: after) received (queue ++ [msg])

namespace Layers

variable {T : Type} {sent received queue : List T} {msg : T}

theorem perm (h : Layers sent received queue) : sent.Perm (received ++ queue) := by
  induction h with
  | base h => simpa using h
  | @layer before after earlier received queue msg _ hr ih =>
    calc
      (before ++ msg :: after).Perm (earlier ++ queue ++ msg :: after) := ih.append_right _
      _ = earlier ++ (queue ++ [msg] ++ after) := by simp
      List.Perm _ (earlier ++ (after ++ (queue ++ [msg]))) := List.perm_append_comm.append_left _
      _ = earlier ++ after ++ (queue ++ [msg]) := by simp
      List.Perm _ (received ++ (queue ++ [msg])) := hr.symm.append_right _

theorem send (h : Layers sent received queue) (msg : T) :
    Layers (sent ++ [msg]) received (queue ++ [msg]) :=
  h.layer (by simp)

theorem extend (h : Layers sent received queue) {after received' : List T}
    (hr : received'.Perm (received ++ after)) : Layers (sent ++ after) received' queue := by
  cases h with
  | base hs => exact .base ((hs.append_right after).trans hr.symm)
  | layer hbefore hearlier =>
    rw [List.append_assoc, List.cons_append]
    refine hbefore.layer (hr.trans ?_)
    rw [← List.append_assoc]
    exact hearlier.append_right after

theorem split (h : Layers sent received (queue ++ [msg])) :
    ∃ before after earlier, sent = before ++ msg :: after ∧ Layers before earlier queue ∧
      received.Perm (earlier ++ after) := by
  generalize hq : queue ++ [msg] = all at h
  cases h with
  | base => simp at hq
  | @layer before after earlier _ queue' msg' hbefore hearlier =>
    obtain ⟨rfl, hmsg⟩ := List.append_inj' hq rfl
    cases hmsg
    exact ⟨before, after, earlier, rfl, hbefore, hearlier⟩

theorem latest (h : Layers sent received (queue ++ [msg])) : Latest sent received msg queue := by
  obtain ⟨before, after, earlier, hsent, hbefore, hearlier⟩ := h.split
  exact ⟨before, after, earlier, hsent, hearlier, hbefore.perm⟩

theorem receive (h : Layers sent received (queue ++ [msg])) :
    Layers sent (received ++ [msg]) queue := by
  obtain ⟨before, after, earlier, rfl, hbefore, hearlier⟩ := h.split
  apply hbefore.extend
  calc
    (received ++ [msg]).Perm (earlier ++ after ++ [msg]) := hearlier.append_right _
    List.Perm _ (msg :: (earlier ++ after)) := List.perm_append_singleton _ _
    List.Perm _ (earlier ++ msg :: after) := List.perm_middle.symm

end Layers

namespace QueueRun

variable {T : Type} {s s' : QueueRun T}

theorem step_receive (h : s.step .receive = some s') :
    ∃ msg, s'.received = s.received ++ [msg] ∧ s'.sent = s.sent ∧
      s.queue.messages = s'.queue.messages ++ [msg] := by
  simp only [QueueRun.step, Option.map_eq_some_iff, Prod.exists] at h
  obtain ⟨msg, q, hq, rfl⟩ := h
  exact ⟨msg, rfl, rfl, by rw [MessageQueue.receive_eq_some.mp hq]; rfl⟩

theorem layers_step {l : QueueCall T} (h : Layers s.sent s.received s.queue.messages)
    (hstep : s.step l = some s') : Layers s'.sent s'.received s'.queue.messages := by
  cases l with
  | send msg => cases hstep; exact h.send msg
  | receive =>
    obtain ⟨msg, hreceived, hsent, hqueue⟩ := step_receive hstep
    rw [hreceived, hsent]
    exact (hqueue ▸ h).receive

theorem layers {ls : List (QueueCall T)} (h : run QueueRun.step {} ls = some s) :
    Layers s.sent s.received s.queue.messages :=
  Reachable.invariant (I := fun s : QueueRun T => Layers s.sent s.received s.queue.messages)
    (fun hl hstep => layers_step hl hstep) (.base (List.Perm.refl [])) ⟨ls, h⟩

def Single (s : QueueRun T) : QueueCall T → Prop
  | .send _ => True
  | .receive => s.queue.messages.length = 1

theorem Single.step {l : QueueCall T} (hl : s.Single l)
    (h : s.sent = s.received ++ s.queue.messages) (hstep : s.step l = some s') :
    s'.sent = s'.received ++ s'.queue.messages := by
  cases l with
  | send msg => cases hstep; simp [MessageQueue.send, h]
  | receive =>
    obtain ⟨msg, hreceived, hsent, hqueue⟩ := step_receive hstep
    have hnil : s'.queue.messages = [] := by
      simpa [Single, hqueue] using hl
    rw [hsent, h, hreceived, hqueue, hnil]
    simp

end QueueRun

def Action.sent? : Action → Option Command
  | .sent c => some c
  | _ => none

def Action.received? : Action → Option Command
  | .received c => some c
  | _ => none

def sentCommands (h : List Action) : List Command := h.filterMap Action.sent?

def receivedCommands (h : List Action) : List Command := h.filterMap Action.received?

@[simp] theorem sentCommands_append (h h' : List Action) :
    sentCommands (h ++ h') = sentCommands h ++ sentCommands h' := List.filterMap_append ..

@[simp] theorem sentCommands_cons (a : Action) (h : List Action) :
    sentCommands (a :: h) = a.sent?.toList ++ sentCommands h := by
  cases ha : a.sent? <;> simp [sentCommands, ha]

@[simp] theorem sentCommands_nil : sentCommands [] = [] := rfl

@[simp] theorem receivedCommands_append (h h' : List Action) :
    receivedCommands (h ++ h') = receivedCommands h ++ receivedCommands h' := List.filterMap_append ..

@[simp] theorem receivedCommands_cons (a : Action) (h : List Action) :
    receivedCommands (a :: h) = a.received?.toList ++ receivedCommands h := by
  cases ha : a.received? <;> simp [receivedCommands, ha]

@[simp] theorem receivedCommands_nil : receivedCommands [] = [] := rfl

namespace Handler

def waiting : Handler → Bool
  | .sent _ => true
  | _ => false

def own : Handler → Option Command
  | .sent c => some c
  | .answered c _ => c
  | _ => none

@[simp] theorem waiting_sent (c : Command) : (sent c).waiting = true := rfl

@[simp] theorem own_sent (c : Command) : (sent c).own = some c := rfl

end Handler

def Wallet.queueRun (w : Wallet) : QueueRun Command :=
  ⟨w.commandQueue, sentCommands w.history, receivedCommands w.history⟩

section Moves

variable {P : Platform} {o : Outcomes} {c : Command} {trail : List Action}

theorem Trail.commands {db : AccountDB} (h : Trail P o db c trail) :
    sentCommands trail = [] ∧ receivedCommands trail = [] := by
  constructor <;> apply h.filterMap_eq_nil <;> intro a hw
  · cases a with
    | sent => exact hw.elim
    | _ => rfl
  · cases a with
    | received => exact hw.elim
    | _ => rfl

theorem reads_commands {key : String} {reads : List Action}
    (h : ∀ a ∈ reads, ∃ value, a = .got .getBalance key value) :
    sentCommands reads = [] ∧ receivedCommands reads = [] := by
  constructor <;> apply List.filterMap_eq_nil_iff.mpr <;> intro a ha <;>
    obtain ⟨value, rfl⟩ := h a ha <;> rfl

theorem Moves.queue {t t' : Handler} {w w' : Wallet} (h : Moves P o t w t' w') :
    (w'.queueRun = w.queueRun ∧ t.waiting = false ∧ t'.waiting = false ∧ t.own = none ∧
      t'.own = none) ∨
    (∃ c, t.waiting = false ∧ t.own = none ∧ t' = .sent c ∧
      w.queueRun.step (.send c) = some w'.queueRun) ∨
    ∃ own, t = .sent own ∧ t'.waiting = false ∧ t'.own = some own ∧
      w.queueRun.step .receive = some w'.queueRun := by
  cases h with
  | look hreads =>
    obtain ⟨hsent, hreceived⟩ := reads_commands hreads
    exact .inl ⟨by simp [Wallet.queueRun, hsent, hreceived], rfl, rfl, rfl, rfl⟩
  | @send _ _ _ _ c =>
    refine .inr (.inl ⟨c, rfl, rfl, rfl, ?_⟩)
    simp [Wallet.queueRun, QueueRun.step, Action.sent?, Action.received?]
  | generate =>
    exact .inl ⟨by simp [Wallet.queueRun, Action.sent?, Action.received?], rfl, rfl, rfl, rfl⟩
  | store =>
    exact .inl ⟨by simp [Wallet.queueRun, Action.sent?, Action.received?], rfl, rfl, rfl, rfl⟩
  | @toggle own c q trail _ _ _ hqueue htrail =>
    obtain ⟨hsent, hreceived⟩ := htrail.commands
    refine .inr (.inr ⟨own, rfl, ?_⟩)
    cases verdict P o w.accountDB c <;>
      simp [Verdict.answer, Verdict.response, Handler.waiting, Handler.own, Wallet.queueRun,
        QueueRun.step, hqueue, Verdict.wallet, Verdict.report, hsent, hreceived, Action.sent?,
        Action.received?]
  | _ => exact .inl ⟨rfl, rfl, rfl, rfl, rfl⟩

end Moves

namespace System

variable {P : Platform} {s s' : System}

theorem queue_step {l : Label} (hl : l ≠ .restart) (h : step P s l = some s') :
    s'.shared.queueRun = s.shared.queueRun ∨
      ∃ call, s.shared.queueRun.step call = some s'.shared.queueRun := by
  rcases step_cases h with
    ⟨r, rfl, rfl⟩ | ⟨i, o, before, t, after, t', rfl, -, -, -, hmove⟩ | ⟨rfl, rfl⟩
  · exact .inl rfl
  · rcases hmove.queue with ⟨hsame, -⟩ | ⟨c, -, -, -, hsend⟩ | ⟨own, -, -, -, hreceive⟩
    · exact .inl hsame
    · exact .inr ⟨_, hsend⟩
    · exact .inr ⟨_, hreceive⟩
  · exact absurd rfl hl

theorem queue_run {w : Wallet} (hw : w.queueRun = {}) {ls : List Label} (hls : ∀ l ∈ ls, l ≠ .restart)
    (h : run (step P) (init w) ls = some s) :
    ∃ calls, run QueueRun.step {} calls = some s.shared.queueRun := by
  refine run_invariant (C := fun _ l => l ≠ .restart)
    (I := fun s => ∃ calls, run QueueRun.step {} calls = some s.shared.queueRun) ?_
    ⟨[], congrArg some hw.symm⟩ (Meets.of_forall (fun l hl _ => hls l hl) _) h
  rintro s l s' ⟨calls, hcalls⟩ hl hstep
  rcases queue_step hl hstep with hsame | ⟨call, hcall⟩
  · exact ⟨calls, by rw [hcalls, hsame]⟩
  · refine ⟨calls ++ [call], ?_⟩
    rw [Lib.run_append, hcalls]
    simp [run, hcall]

end System

/-- `receive` returns the most recently sent of the messages not yet received,
by itself and in the running service.  With one message outstanding at a time
the messages come out in the order they were sent. -/
theorem receive_takes_latest :
    (∀ (T : Type) (ls : List (QueueCall T)) (s s' : QueueRun T),
      run QueueRun.step {} ls = some s → s.step .receive = some s' →
      ∃ msg, s'.received = s.received ++ [msg] ∧
        Latest s.sent s.received msg s'.queue.messages) ∧
    (∀ (T : Type) (ls : List (QueueCall T)) (s : QueueRun T),
      run QueueRun.step {} ls = some s → Meets QueueRun.step QueueRun.Single {} ls →
      s.received <+: s.sent) ∧
    ∀ (P : Platform) (ls : List Label) (s s' : System) (i : Nat) (own : Command) (o : Outcomes),
      (∀ l ∈ ls, l ≠ .restart) → run (System.step P) (System.init .empty) ls = some s →
      s.threads[i]? = some (.sent own) → System.step P s (.advance i o) = some s' →
      ∃ c, receivedCommands s'.shared.history = receivedCommands s.shared.history ++ [c] ∧
        Latest (sentCommands s.shared.history) (receivedCommands s.shared.history) c
          s'.shared.commandQueue.messages := by
  have hlatest : ∀ (T : Type) (ls : List (QueueCall T)) (s s' : QueueRun T),
      run QueueRun.step {} ls = some s → s.step .receive = some s' →
      ∃ msg, s'.received = s.received ++ [msg] ∧
        Latest s.sent s.received msg s'.queue.messages := by
    intro T ls s s' hrun hstep
    obtain ⟨msg, hreceived, -, hqueue⟩ := QueueRun.step_receive hstep
    exact ⟨msg, hreceived, (hqueue ▸ QueueRun.layers hrun).latest⟩
  refine ⟨hlatest, ?_, ?_⟩
  · intro T ls s hrun hmeets
    have hsplit := run_invariant
      (I := fun s : QueueRun T => s.sent = s.received ++ s.queue.messages)
      (fun h hl hstep => QueueRun.Single.step hl h hstep) rfl hmeets hrun
    exact ⟨s.queue.messages, hsplit.symm⟩
  · intro P ls s s' i own o hls hrun hi hstep
    obtain ⟨calls, hcalls⟩ := System.queue_run rfl hls hrun
    rcases System.step_cases hstep with
      ⟨r, hl, -⟩ | ⟨i', o', before, t, after, t', hl, hi', -, -, hmove⟩ | ⟨hl, -⟩
    · cases hl
    · cases hl
      cases hi.symm.trans hi'
      rcases hmove.queue with ⟨-, hno, -⟩ | ⟨c, hno, -⟩ | ⟨own', -, -, -, hreceive⟩
      · cases hno
      · cases hno
      · exact hlatest _ _ _ _ hcalls hreceive
    · cases hl

def firstCommand : Command := ⟨"tx-1", "700000001", "700000002", "30", "TRANSFER"⟩

def secondCommand : Command := ⟨"tx-2", "700000003", "700000004", "40", "TRANSFER"⟩

def overtakingRun : List Label :=
  [.arrive (.balanceTransfer (some "700000001") (some "700000002") (some "30") "tx-1"),
    .arrive (.balanceTransfer (some "700000003") (some "700000004") (some "40") "tx-2"),
    .advance 0 .succeed, .advance 1 .succeed, .advance 0 .succeed]

theorem receive_takes_latest_example :
    (∃ msg, Latest [1, 2, 3] [2] msg [1]) ∧
      ∃ s, run QueueRun.step {} [.send 1, .receive, .send 2, .receive] = some s ∧
        s.received <+: s.sent := by
  constructor
  · obtain ⟨msg, -, h⟩ := receive_takes_latest.1 Nat [.send 1, .send 2, .receive, .send 3]
      ⟨⟨[1, 3]⟩, [1, 2, 3], [2]⟩ ⟨⟨[1]⟩, [1, 2, 3], [2, 3]⟩ rfl rfl
    exact ⟨msg, h⟩
  · refine ⟨⟨⟨[]⟩, [1, 2], [1, 2]⟩, rfl, ?_⟩
    refine receive_takes_latest.2.1 Nat [.send 1, .receive, .send 2, .receive] _ rfl ?_
    simp [Meets, QueueRun.Single, QueueRun.step, MessageQueue.send, MessageQueue.receive]

theorem later_command_overtakes :
    ∃ s, run (System.step (.int32 fun _ => "")) (System.init .empty) overtakingRun = some s ∧
      sentCommands s.shared.history = [firstCommand, secondCommand] ∧
      receivedCommands s.shared.history = [secondCommand] ∧
      ¬ receivedCommands s.shared.history <+: sentCommands s.shared.history := by
  refine ⟨(run (System.step (.int32 fun _ => "")) (System.init .empty) overtakingRun).getD
    (System.init .empty), ?_, ?_, ?_, ?_⟩ <;> decide +kernel

end DigitalWallet
