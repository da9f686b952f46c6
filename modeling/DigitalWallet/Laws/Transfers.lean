import DigitalWallet.Laws.Atomicity
import DigitalWallet.Laws.Queue

namespace DigitalWallet

open Lib

structure Wallet.Idle (w : Wallet) : Prop where
  listen : w.currentState = .listen
  lock : w.cvM = false
  queue : w.commandQueue = {}
  texts : Texts (fun n => fits32 n = true) w.accountDB
  history : w.history = []

def Label.Transfers : Label → Prop
  | .arrive (.balanceTransfer _ _ _ _) => True
  | .advance _ o => o.logThrows = false
  | _ => False

def Handler.finished : Handler → Bool
  | .answered _ _ => true
  | _ => false

def Service.processed (P : Platform) (w : Wallet) (c : Command) : Wallet :=
  (Prog.run .succeed (do Prog.send c; Service.toggle P) w).2

theorem Service.processed_verdict {P : Platform} {w : Wallet} (hl : w.currentState = .listen)
    (c : Command) :
    (processed P w c).accountDB = (verdict P .succeed w.accountDB c).accountDB P c w.accountDB ∧
      (processed P w c).eventLog = (verdict P .succeed w.accountDB c).eventLog c w.eventLog ∧
      (processed P w c).currentState = (verdict P .succeed w.accountDB c).state := by
  obtain ⟨trail, -, hrun⟩ := toggle_run (P := P) (o := .succeed) (c := c) (q := w.commandQueue)
    (w := { w with commandQueue := w.commandQueue.send c, history := w.history ++ [.sent c] }) hl rfl
  have hsend : Prog.run .succeed (do Prog.send c; Service.toggle P) w =
      (Service.toggle P).run .succeed
        { w with commandQueue := w.commandQueue.send c, history := w.history ++ [.sent c] } := rfl
  rw [processed, hsend, hrun]
  exact ⟨rfl, rfl, rfl⟩

section Transfers

variable {text : Status → String} {w : Wallet} {s s' : System} {ls : List Label}

structure System.Matched (s : System) : Prop where
  waiting : s.shared.commandQueue.messages.length = s.threads.countP Handler.waiting
  own : (sentCommands s.shared.history).Perm (s.threads.filterMap Handler.own)

theorem System.Matched.step {P : Platform} {l : Label} (h : s.Matched) (hl : l ≠ .restart)
    (hstep : System.step P s l = some s') : s'.Matched := by
  obtain ⟨hwaiting, hown⟩ := h
  rcases System.step_cases hstep with
    ⟨r, rfl, rfl⟩ | ⟨i, o, before, t, after, t', rfl, -, ht, ht', hmove⟩ | ⟨rfl, rfl⟩
  · exact ⟨by simpa [Handler.waiting] using hwaiting, by simpa [List.filterMap_cons, Handler.own] using hown⟩
  · rw [ht] at hwaiting hown
    rcases hmove.queue with ⟨hsame, hw, hw', ho, ho'⟩ | ⟨c, hw, ho, rfl, hsend⟩ | ⟨own, rfl, hw', ho, hreceive⟩
    · have hqueue : s'.shared.commandQueue = s.shared.commandQueue := congrArg QueueRun.queue hsame
      have hsent : sentCommands s'.shared.history = sentCommands s.shared.history :=
        congrArg QueueRun.sent hsame
      constructor
      · rw [hqueue, hwaiting, ht']
        simp [hw, hw']
      · rw [hsent, ht']
        simpa [List.filterMap_cons, ho, ho'] using hown
    · have hqueue := congrArg QueueRun.queue (Option.some.inj hsend)
      have hsent := congrArg QueueRun.sent (Option.some.inj hsend)
      simp only [Wallet.queueRun] at hqueue hsent
      constructor
      · rw [← hqueue, ht']
        simp [MessageQueue.send, hwaiting, List.countP_cons, hw]
        omega
      · rw [← hsent, ht', List.filterMap_append, List.filterMap_cons_some (by rfl)]
        refine (List.perm_append_singleton _ _).trans (List.Perm.trans ?_ List.perm_middle.symm)
        simpa [List.filterMap_cons, ho] using hown
    · obtain ⟨msg, -, hsent, hqueue⟩ := QueueRun.step_receive hreceive
      simp only [Wallet.queueRun] at hqueue hsent
      constructor
      · rw [hqueue] at hwaiting
        rw [ht']
        simp [List.countP_cons, hw'] at hwaiting ⊢
        omega
      · rw [hsent, ht']
        simpa [List.filterMap_cons, ho] using hown
  · exact absurd rfl hl

theorem Label.Transfers.not_restart {l : Label} (h : l.Transfers) : l ≠ .restart := by
  rintro rfl
  exact h

theorem Label.Transfers.not_strandsAt {l : Label} (h : l.Transfers) : ¬ StrandsAt s l := by
  rintro ⟨i, o, own, q, c, rfl, -, -, -, -, hthrows⟩
  cases (show o.logThrows = false from h).symm.trans hthrows

def Handler.Transfers : Handler → Prop
  | .arrived (.balanceTransfer _ _ _ _) => True
  | .sent _ => True
  | .answered _ _ => True
  | _ => False

theorem Moves.transfers {P : Platform} {o : Outcomes} {t t' : Handler} {w w' : Wallet}
    (h : Moves P o t w t' w') (ht : t.Transfers) : t'.Transfers := by
  cases h with
  | @toggle own c => cases verdict P o w.accountDB c <;> trivial
  | _ => trivial

structure System.Transferring (text : Status → String) (s : System) : Prop where
  sane : s.Sane (.int32 text) (fun n => fits32 n = true)
  listen : s.shared.currentState = .listen
  matched : s.Matched
  kinds : ∀ t ∈ s.threads, t.Transfers

namespace System.Transferring

theorem init (hw : w.Idle) : (System.init w).Transferring text where
  sane := ⟨hw.texts, by simp [System.init, hw.queue], hw.lock, by simp [System.init]⟩
  listen := hw.listen
  matched := ⟨by simp [System.init, hw.queue], by simp [System.init, hw.history]⟩
  kinds := by simp [System.init]

theorem step {l : Label} (h : s.Transferring text) (hl : l.Transfers)
    (hstep : System.step (.int32 text) s l = some s') : s'.Transferring text := by
  refine ⟨h.sane.step (Platform.int32_holds text) hstep,
    listen_step h.sane h.listen hl.not_strandsAt hstep, h.matched.step hl.not_restart hstep, ?_⟩
  rcases System.step_cases hstep with
    ⟨r, rfl, rfl⟩ | ⟨i, o, before, t, after, t', rfl, -, ht, ht', hmove⟩ | ⟨rfl, rfl⟩
  · intro t' ht'
    rcases List.mem_append.mp ht' with ht' | ht'
    · exact h.kinds t' ht'
    · rw [List.mem_singleton.mp ht']
      cases r <;> exact hl
  · rw [ht']
    exact forall_mem_replace (ht ▸ h.kinds) (hmove.transfers (h.kinds t (by simp [ht])))
  · exact hl.elim

theorem of_run (hw : w.Idle) (hls : ∀ l ∈ ls, l.Transfers)
    (h : run (System.step (.int32 text)) (System.init w) ls = some s) : s.Transferring text :=
  run_invariant (C := fun _ l => l.Transfers) (fun hs hl hstep => hs.step hl hstep) (.init hw)
    (Meets.of_forall (fun l hl _ => hls l hl) _) h

end System.Transferring

def Serialized (P : Platform) (w : Wallet) (s : System) : Prop :=
  let f := (receivedCommands s.shared.history).foldl (Service.processed P) w
  s.shared.accountDB = f.accountDB ∧ s.shared.eventLog = f.eventLog ∧
    f.currentState = s.shared.currentState

theorem Serialized.step {l : Label} (hs : s.Transferring text) (h : Serialized (.int32 text) w s)
    (hl : l.Transfers) (hsucceeds : l.Succeeds)
    (hstep : System.step (.int32 text) s l = some s') : Serialized (.int32 text) w s' := by
  rcases System.step_cases hstep with
    ⟨r, rfl, rfl⟩ | ⟨i, o, before, t, after, t', rfl, -, ht, -, hmove⟩ | ⟨rfl, rfl⟩
  · exact h
  · obtain rfl : o = .succeed := hsucceeds
    have hkind := hs.kinds t (by simp [ht])
    obtain ⟨w', ts'⟩ := s'
    change Moves _ _ _ _ _ w' at hmove
    cases hmove with
    | reply => exact h
    | look => exact hkind.elim
    | send => simpa [Serialized, Action.received?] using h
    | generate => exact hkind.elim
    | generateFailed => exact hkind.elim
    | generateStopped => exact hkind.elim
    | store => exact hkind.elim
    | storeFailed => exact hkind.elim
    | @toggle own c q trail _ _ hlisten _ htrail =>
      obtain ⟨hdb, hlog, hstate⟩ := h
      have hreceived : receivedCommands (s.shared.history ++ (.received c :: .entered .validate c ::
          trail ++ (verdict (.int32 text) .succeed s.shared.accountDB c).report c)) =
            receivedCommands s.shared.history ++ [c] := by
        cases verdict (.int32 text) .succeed s.shared.accountDB c <;>
          simp [Verdict.report, htrail.commands.2, Action.received?]
      have hf := Service.processed_verdict (P := .int32 text) (hstate.trans hlisten) c
      rw [← hdb, ← hlog] at hf
      simp only [Serialized, Verdict.wallet, hreceived, List.foldl_append, List.foldl_cons,
        List.foldl_nil]
      exact ⟨hf.1.symm, hf.2.1.symm, hf.2.2⟩
  · exact hl.elim

theorem Serialized.of_run (hw : w.Idle) (hls : ∀ l ∈ ls, l.Transfers) (hall : ∀ l ∈ ls, l.Succeeds)
    (h : run (System.step (.int32 text)) (System.init w) ls = some s) :
    Serialized (.int32 text) w s := by
  have h0 : Serialized (.int32 text) w (System.init w) := by
    simp [Serialized, System.init, hw.history]
  have hinv := run_invariant (C := fun _ l => l.Transfers ∧ l.Succeeds)
    (I := fun s => System.Transferring text s ∧ Serialized (.int32 text) w s)
    (fun hs hl hstep => ⟨hs.1.step hl.1 hstep, hs.2.step hs.1 hl.1 hl.2 hstep⟩) ⟨.init hw, h0⟩
    (Meets.of_forall (fun l hl _ => ⟨hls l hl, hall l hl⟩) _) h
  exact hinv.2

/-- Every command sent is processed exactly once, one at a time, and no handler
ever blocks in `receive` with the lock held. -/
theorem transfers_exactly_once (text : Status → String) {w : Wallet} (hw : w.Idle) {ls : List Label}
    {s : System} (hls : ∀ l ∈ ls, l.Transfers)
    (hrun : run (System.step (.int32 text)) (System.init w) ls = some s) :
    s.shared.commandQueue.messages.length = s.threads.countP Handler.waiting ∧
      (∀ own o, .sent own ∈ s.threads → s.shared.commandQueue.messages ≠ [] ∧
        ((toggleAndReport (.int32 text)).run o s.shared).1 ≠ .blocked) ∧
      s.shared.cvM = false ∧ s.shared.currentState = .listen ∧
      ((∀ t ∈ s.threads, t.finished = true) → s.shared.commandQueue.messages = [] ∧
        (receivedCommands s.shared.history).Perm (sentCommands s.shared.history) ∧
        (sentCommands s.shared.history).Perm (s.threads.filterMap Handler.own)) ∧
      ((∀ l ∈ ls, l.Succeeds) →
        s.shared.accountDB = ((receivedCommands s.shared.history).foldl
          (Service.processed (.int32 text)) w).accountDB ∧
        s.shared.eventLog = ((receivedCommands s.shared.history).foldl
          (Service.processed (.int32 text)) w).eventLog) := by
  have hs := System.Transferring.of_run hw hls hrun
  have hwaiting := hs.matched.waiting
  have hqueue : w.queueRun = {} := by simp [Wallet.queueRun, hw.queue, hw.history]
  obtain ⟨calls, hcalls⟩ := System.queue_run hqueue (fun l hl => (hls l hl).not_restart) hrun
  refine ⟨hwaiting, ?_, hs.sane.lock, hs.listen, ?_, ?_⟩
  · intro own o hmem
    have hpos : 0 < s.threads.countP Handler.waiting := List.countP_pos_iff.mpr ⟨_, hmem, rfl⟩
    have hne : s.shared.commandQueue.messages ≠ [] := by
      rw [← hwaiting] at hpos
      exact List.ne_nil_of_length_pos hpos
    exact ⟨hne, toggleAndReport_not_blocked hs.sane.lock hs.listen hne⟩
  · intro hfinished
    have hzero : s.threads.countP Handler.waiting = 0 := by
      apply List.countP_eq_zero.mpr
      intro t ht
      have := hfinished t ht
      cases t <;> simp_all [Handler.finished, Handler.waiting]
    have hnil : s.shared.commandQueue.messages = [] := by
      rw [hzero] at hwaiting
      exact List.eq_nil_of_length_eq_zero hwaiting
    refine ⟨hnil, ?_, hs.matched.own⟩
    have hperm := (QueueRun.layers hcalls).perm
    simpa [Wallet.queueRun, hnil] using hperm.symm
  · intro hall
    obtain ⟨hdb, hlog, -⟩ := Serialized.of_run hw hls hall hrun
    exact ⟨hdb, hlog⟩

def idleWallet : Wallet := .start exampleState.shared.accountDB [] .absent []

theorem idleWallet_idle : idleWallet.Idle where
  listen := rfl
  lock := rfl
  queue := rfl
  texts := (System.Sane.of_reachable (Platform.int32_holds exampleText) exampleState_reachable).texts
  history := rfl

def crossedRun : List Label :=
  [.arrive (.balanceTransfer (some "700000001") (some "799999999") (some "10") "tx-a"),
    .arrive (.balanceTransfer (some "700000001") (some "700000002") (some "30") "tx-b"),
    .advance 0 .succeed, .advance 1 .succeed, .advance 0 .succeed, .advance 1 .succeed]

def crossedState : System :=
  (run (System.step (.int32 exampleText)) (System.init idleWallet) crossedRun).getD
    (System.init idleWallet)

theorem crossedState_run :
    run (System.step (.int32 exampleText)) (System.init idleWallet) crossedRun =
      some crossedState := by
  decide +kernel

theorem transfers_exactly_once_example :
    crossedState.shared.commandQueue.messages = [] ∧
      (receivedCommands crossedState.shared.history).Perm
        (sentCommands crossedState.shared.history) ∧
      crossedState.shared.accountDB = ((receivedCommands crossedState.shared.history).foldl
        (Service.processed (.int32 exampleText)) idleWallet).accountDB := by
  obtain ⟨-, -, -, -, hdone, hserial⟩ := transfers_exactly_once exampleText idleWallet_idle
    (by simp [crossedRun, Label.Transfers, Outcomes.succeed]) crossedState_run
  obtain ⟨hqueue, hperm, -⟩ := hdone (by decide +kernel)
  exact ⟨hqueue, hperm, (hserial (by simp [crossedRun, Label.Succeeds])).1⟩

def TakesOwn (s : System) : Label → Prop
  | .advance i _ => ∀ t ∈ s.threads[i]?, t.waiting = true →
      s.shared.commandQueue.messages.getLast? = t.own
  | _ => True

instance (s : System) : ∀ l, Decidable (TakesOwn s l)
  | .advance _ _ => inferInstanceAs (Decidable (∀ t ∈ _, _))
  | .arrive _ => isTrue trivial
  | .restart => isTrue trivial

def reportedStatuses (c : Command) (h : List Action) : List Status :=
  h.filterMap fun | .reported c' st => if c' = c then some st else none | _ => none

theorem mem_reportedStatuses {c : Command} {st : Status} {h : List Action} :
    st ∈ reportedStatuses c h ↔ .reported c st ∈ h := by
  constructor
  · intro hmem
    obtain ⟨a, ha, hst⟩ := List.mem_filterMap.mp hmem
    cases a with
    | reported c' st' =>
      simp only [Option.ite_none_right_eq_some, Option.some.injEq] at hst
      obtain ⟨rfl, rfl⟩ := hst
      exact ha
    | _ => cases hst
  · intro ha
    exact List.mem_filterMap.mpr ⟨_, ha, by simp⟩

def AnswersOwn (P : Platform) (s : System) : Prop :=
  ∀ c resp, .answered (some c) resp ∈ s.threads →
    ∃ st ∈ reportedStatuses c s.shared.history,
      resp = { body := "Return Status: " ++ P.statusText st ++ "\n" }

theorem Moves.answers {own : Command} {t' : Handler} {w w' : Wallet}
    (h : Moves (.int32 text) .succeed (.sent own) w t' w')
    (ht : Texts (fun n => fits32 n = true) w.accountDB)
    (hq : ∀ c ∈ w.commandQueue.messages, Accepted (.int32 text) c)
    (hown : w.commandQueue.messages.getLast? = some own) :
    ∃ st, .reported own st ∈ w'.history ∧
      t' = .answered (some own) { body := "Return Status: " ++ text st ++ "\n" } := by
  cases h with
  | @toggle _ c _ _ _ _ _ hqueue htrail =>
    obtain rfl : c = own := by simpa [hqueue, MessageQueue.send] using hown
    rcases verdict_succeed (fun _ h => h) ht (hq c (by simp [hqueue, MessageQueue.send])) with
      ⟨st, -, hv, -⟩ | ⟨a, b, n, -, -, -, -, hv⟩
    · rw [hv]
      exact ⟨st, by simp [Verdict.wallet, Verdict.report], rfl⟩
    · rw [hv]
      exact ⟨.OK, by simp [Verdict.wallet, Verdict.report], rfl⟩

theorem AnswersOwn.step {l : Label} (hs : s.Transferring text) (h : AnswersOwn (.int32 text) s)
    (hl : l.Transfers) (hsucceeds : l.Succeeds) (hown : TakesOwn s l)
    (hstep : System.step (.int32 text) s l = some s') : AnswersOwn (.int32 text) s' := by
  rcases System.step_cases hstep with
    ⟨r, rfl, rfl⟩ | ⟨i, o, before, t, after, t', rfl, hi, ht, ht', hmove⟩ | ⟨rfl, rfl⟩
  · intro c resp hmem
    exact h c resp (by simpa using hmem)
  · obtain rfl : o = .succeed := hsucceeds
    intro c resp hmem
    rw [ht', List.mem_append, List.mem_cons] at hmem
    have hkept : .answered (some c) resp ∈ s.threads → ∃ st ∈ reportedStatuses c s'.shared.history,
        resp = { body := "Return Status: " ++ text st ++ "\n" } := by
      intro hold
      obtain ⟨st, hst, hresp⟩ := h c resp hold
      rw [mem_reportedStatuses] at hst
      exact ⟨st, mem_reportedStatuses.mpr (hmove.history.subset hst), hresp⟩
    rcases hmem with hmem | rfl | hmem
    · exact hkept (by simp [ht, hmem])
    · rcases hmove.queue with ⟨-, -, -, -, hnone⟩ | ⟨_, -, -, hsent, -⟩ | ⟨own, rfl, -, hsame, -⟩
      · cases hnone
      · cases hsent
      · cases hsame
        obtain ⟨st, hst, hresp⟩ := hmove.answers hs.sane.texts hs.sane.queue (hown _ hi rfl)
        cases hresp
        exact ⟨st, mem_reportedStatuses.mpr hst, rfl⟩
    · exact hkept (by simp [ht, hmem])
  · exact hl.elim

/-- In a run of transfers in which every toggle takes its handler's own command,
every response answers its own request. -/
theorem answers_own (text : Status → String) {w : Wallet} (hw : w.Idle) {ls : List Label}
    {s : System} (hls : ∀ l ∈ ls, l.Transfers ∧ l.Succeeds)
    (hown : Meets (System.step (.int32 text)) TakesOwn (System.init w) ls)
    (hrun : run (System.step (.int32 text)) (System.init w) ls = some s) :
    AnswersOwn (.int32 text) s := by
  have hmeets : Meets (System.step (.int32 text))
      (fun s l => (l.Transfers ∧ l.Succeeds) ∧ TakesOwn s l) (System.init w) ls :=
    (Meets.of_forall (fun l hl _ => hls l hl) _).and hown
  have hinv := run_invariant
    (I := fun s => System.Transferring text s ∧ AnswersOwn (.int32 text) s)
    (fun hs hl hstep => ⟨hs.1.step hl.1.1 hstep, hs.2.step hs.1 hl.1.1 hl.1.2 hl.2 hstep⟩)
    ⟨.init hw, by simp [AnswersOwn, System.init]⟩ hmeets hrun
  exact hinv.2

def ownRun : List Label :=
  [.arrive (.balanceTransfer (some "700000001") (some "799999999") (some "10") "tx-a"),
    .arrive (.balanceTransfer (some "700000001") (some "700000002") (some "30") "tx-b"),
    .advance 0 .succeed, .advance 1 .succeed, .advance 1 .succeed, .advance 0 .succeed]

theorem answers_own_example :
    ∃ s, run (System.step (.int32 exampleText)) (System.init idleWallet) ownRun = some s ∧
      AnswersOwn (.int32 exampleText) s := by
  have hrun : run (System.step (.int32 exampleText)) (System.init idleWallet) ownRun =
      some ((run (System.step (.int32 exampleText)) (System.init idleWallet) ownRun).getD
        (System.init idleWallet)) := by decide +kernel
  refine ⟨_, hrun, answers_own exampleText idleWallet_idle ?_ ?_ hrun⟩
  · simp [ownRun, Label.Transfers, Label.Succeeds, Outcomes.succeed]
  · decide +kernel

theorem crossed_answers :
    idleWallet.Idle ∧ (∀ l ∈ crossedRun, l.Transfers ∧ l.Succeeds) ∧
      run (System.step (.int32 exampleText)) (System.init idleWallet) crossedRun =
        some crossedState ∧
      ¬ AnswersOwn (.int32 exampleText) crossedState := by
  refine ⟨idleWallet_idle, ?_, crossedState_run, ?_⟩
  · simp [crossedRun, Label.Transfers, Label.Succeeds, Outcomes.succeed]
  · intro h
    obtain ⟨st, hst, hresp⟩ := h ⟨"tx-a", "700000001", "799999999", "10", "TRANSFER"⟩
      { body := "Return Status: OK\n" } (by decide +kernel)
    have hreported : reportedStatuses ⟨"tx-a", "700000001", "799999999", "10", "TRANSFER"⟩
        crossedState.shared.history = [.NotFound] := by decide +kernel
    rw [hreported, List.mem_singleton] at hst
    subst hst
    exact absurd hresp (by decide +kernel)

end Transfers

end DigitalWallet
