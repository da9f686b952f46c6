import DigitalWallet.Defs.System
import DigitalWallet.Laws.Toggle

namespace DigitalWallet

open Lib

def Verdict.answer (P : Platform) (c : Command) (v : Verdict) : Handler :=
  match v.response P with
  | .returned r => .answered (some c) r
  | _ => .answered (some c) ⟨500, ""⟩

inductive Moves (P : Platform) (o : Outcomes) : Handler → Wallet → Handler → Wallet → Prop
  | reply {r resp w} : Moves P o (.arrived r) w (.answered none resp) w
  | look {key resp w s reads} : (∀ a ∈ reads, ∃ value, a = .got .getBalance key value) →
      Moves P o (.arrived (.getBalance (some key))) w (.answered none resp)
        { w with status := s, history := w.history ++ reads }
  | send {fromAccount toAccount amount txId c w} :
      checkTransfer P fromAccount toAccount amount txId = .ok c →
      Moves P o (.arrived (.balanceTransfer fromAccount toAccount amount txId)) w (.sent c)
        { w with commandQueue := w.commandQueue.send c, history := w.history ++ [.sent c] }
  | generate {startAmount n id f w} : checkStartAmount P startAmount = .ok n →
      genAccountID o.seed w.seedFile = (.returned id, f) →
      Moves P o (.arrived (.createAccount startAmount)) w (.generated id n)
        { w with seedFile := f, history := w.history ++ [.generated id] }
  | generateFailed {startAmount f w} : genAccountID o.seed w.seedFile = (.threw, f) →
      Moves P o (.arrived (.createAccount startAmount)) w (.answered none ⟨500, ""⟩)
        { w with seedFile := f }
  | generateStopped {startAmount f w} : genAccountID o.seed w.seedFile = (.stopped, f) →
      Moves P o (.arrived (.createAccount startAmount)) w .lost
        { w with seedFile := f, aborted := true }
  | store {id n resp w} : o.db .createAccount = none →
      Moves P o (.generated id n) w (.answered none resp)
        { w with
          accountDB := w.accountDB.insert id (Cpp.toString n)
          status := .OK
          history := w.history ++ [.wrote .createAccount id (Cpp.toString n)] }
  | storeFailed {id n w} {f : Failure} : o.db .createAccount = some f →
      Moves P o (.generated id n) w .lost { w with status := f.val, aborted := true }
  | toggle {own c q trail w} : w.cvM = false → w.currentState = .listen →
      w.commandQueue = q.send c → Trail P o w.accountDB c trail →
      Moves P o (.sent own) w ((verdict P o w.accountDB c).answer P own)
        ((verdict P o w.accountDB c).wallet P c
          { w with commandQueue := q, commandToProcess := c }
          (.received c :: .entered .validate c :: trail ++ (verdict P o w.accountDB c).report c))

section Run

variable {P : Platform} {o : Outcomes} {w : Wallet}

theorem storeAccount_run (id : String) (n : Int) (h : o.db .createAccount = none) :
    (storeAccount id n).run o w =
      (.returned { body := "Account: " ++ id ++ " : Balance: " ++ Cpp.toString n ++ "\n" },
        { w with
          accountDB := w.accountDB.insert id (Cpp.toString n)
          status := .OK
          history := w.history ++ [.wrote .createAccount id (Cpp.toString n)] }) := by
  simp [storeAccount, run_put_ok h]

theorem storeAccount_run_failed {f : Failure} (id : String) (n : Int)
    (h : o.db .createAccount = some f) :
    (storeAccount id n).run o w = (.threw .stopped, { w with status := f.val, aborted := true }) := by
  simp only [storeAccount, Proc.bind_eq, Proc.op_bind, Proc.ret_bind, run_put_error h, run_ok,
    Failure.ok]
  rfl

theorem getBalance_run (key : String) :
    ∃ resp s reads, (∀ a ∈ reads, ∃ value, a = .got .getBalance key value) ∧
      (getBalance (some key)).run o w =
        (.returned resp, { w with status := s, history := w.history ++ reads }) := by
  simp only [getBalance, Proc.bind_eq, Proc.op_bind, Proc.ret_bind]
  cases h : readAt o w.accountDB .getBalance key with
  | error f =>
    refine ⟨{ body := "Account not found\n" }, f.val, [], by simp, ?_⟩
    simp [run_get_error h]
  | ok value =>
    refine ⟨{ body := "Account: " ++ key ++ " : Balance: " ++ value ++ "\n" }, .OK,
      [.got .getBalance key value], by simp, ?_⟩
    simp [run_get_ok h]

theorem events_run : (∃ resp, events.run o w = (.returned resp, w)) ∨
    events.run o w = (.threw .archive, w) := by
  have hread : ∀ k : List LogEntry → Prog Response,
      Prog.run o (.op .readLog k) w = (k w.eventLog).run o w := fun _ => rfl
  simp only [events, Proc.bind_eq, Proc.op_bind, Proc.ret_bind, hread]
  cases h : readEvents w.eventLog with
  | ok es => exact .inl ⟨_, rfl⟩
  | error e =>
    unfold readEvents at h
    split at h <;> cases h
    exact .inr rfl

theorem toggleAndReport_blocked (h : w.cvM = true ∨ w.currentState ≠ .listen) :
    (toggleAndReport P).run o w = (.blocked, w) := by
  have hw : perform o .wait w = none := by
    rcases h with h | h <;> simp [perform, h]
  simp only [toggleAndReport, Proc.bind_eq, Proc.op_bind, Prog.run, Proc.exec_op_blocked hw]

theorem toggle_starved (hs : w.currentState = .listen) (hq : w.commandQueue.messages = []) :
    (Service.toggle P).run o w = (.blocked, w) := by
  have hr : perform o .receive w = none := by
    simp [perform, MessageQueue.receive_eq_none.mpr hq]
  simp only [Service.toggle, ServiceListen.toggle, Proc.bind_eq, Proc.op_bind, Proc.ret_bind,
    run_currentState, hs]
  exact Proc.exec_op_blocked hr

theorem toggleAndReport_starved (hl : w.cvM = false) (hs : w.currentState = .listen)
    (hq : w.commandQueue.messages = []) :
    (toggleAndReport P).run o w = (.blocked, { w with cvM := true }) := by
  have ht := toggle_starved (P := P) (o := o) (w := { w with cvM := true }) hs hq
  rw [toggleAndReport_of_toggle hl hs ht, released]

theorem toggleAndReport_not_blocked (hl : w.cvM = false) (hs : w.currentState = .listen)
    (hq : w.commandQueue.messages ≠ []) : ((toggleAndReport P).run o w).1 ≠ .blocked := by
  cases hr : w.commandQueue.receive with
  | none => exact absurd (MessageQueue.receive_eq_none.mp hr) hq
  | some cq =>
    obtain ⟨c, q⟩ := cq
    obtain ⟨trail, -, hrun⟩ := toggleAndReport_run (P := P) (o := o) hl hs
      (MessageQueue.receive_eq_some.mp hr)
    rw [hrun]
    cases verdict P o w.accountDB c <;> simp [Verdict.response]

end Run

theorem Moves.of_toggle {P : Platform} {o : Outcomes} {own : Command} {h' : Handler} {w w' : Wallet}
    (hadv : Handler.advance P o (.sent own) w = some (h', w')) : Moves P o (.sent own) w h' w' := by
  simp only [Handler.advance] at hadv
  by_cases hfree : w.cvM = false ∧ w.currentState = .listen
  · obtain ⟨hl, hs⟩ := hfree
    cases hq : w.commandQueue.receive with
    | none =>
      rw [toggleAndReport_starved hl hs (MessageQueue.receive_eq_none.mp hq)] at hadv
      cases hadv
    | some cq =>
      obtain ⟨c, q⟩ := cq
      have hq := MessageQueue.receive_eq_some.mp hq
      obtain ⟨trail, htrail, hrun⟩ := toggleAndReport_run (P := P) (o := o) hl hs hq
      have hmove := @Moves.toggle P o own c q trail w hl hs hq htrail
      rw [hrun] at hadv
      revert hadv hmove
      cases verdict P o w.accountDB c <;> intro hadv hmove <;> cases hadv <;> exact hmove
  · rw [toggleAndReport_blocked (by cases h : w.cvM <;> simp_all)] at hadv
    cases hadv

theorem Moves.of_generate {P : Platform} {o : Outcomes} {startAmount : Option String} {h' : Handler}
    {w w' : Wallet} (hadv : Handler.advance P o (.arrived (.createAccount startAmount)) w = some (h', w')) :
    Moves P o (.arrived (.createAccount startAmount)) w h' w' := by
  simp only [Handler.advance] at hadv
  cases hcheck : checkStartAmount P startAmount with
  | error r => rw [hcheck] at hadv; cases hadv; exact .reply
  | ok n =>
    rw [hcheck] at hadv
    cases hg : genAccountID o.seed w.seedFile with
    | mk e f =>
      cases e with
      | returned id =>
        simp [Prog.run, Proc.exec, perform, hg] at hadv
        obtain ⟨rfl, rfl⟩ := hadv
        exact .generate hcheck hg
      | threw =>
        simp [Prog.run, Proc.exec, perform, hg, Handler.finish] at hadv
        obtain ⟨rfl, rfl⟩ := hadv
        exact .generateFailed hg
      | stopped =>
        simp [Prog.run, Proc.exec, perform, hg, Handler.finish] at hadv
        obtain ⟨rfl, rfl⟩ := hadv
        exact .generateStopped hg
      | overflow => simp [Prog.run, Proc.exec, perform, hg] at hadv

theorem Moves.of_advance {P : Platform} {o : Outcomes} {h h' : Handler} {w w' : Wallet}
    (hadv : h.advance P o w = some (h', w')) : Moves P o h w h' w' := by
  cases h with
  | arrived r =>
    cases r with
    | createAccount startAmount => exact Moves.of_generate hadv
    | balanceTransfer fromAccount toAccount amount txId =>
      simp only [Handler.advance] at hadv
      cases hcheck : checkTransfer P fromAccount toAccount amount txId with
      | error r => rw [hcheck] at hadv; cases hadv; exact .reply
      | ok c => rw [hcheck] at hadv; cases hadv; exact .send hcheck
    | getBalance accountID =>
      cases accountID with
      | none => cases hadv; exact .reply
      | some key =>
        obtain ⟨resp, s, reads, hreads, hrun⟩ := getBalance_run (o := o) (w := w) key
        simp only [Handler.advance, hrun] at hadv
        cases hadv
        exact .look hreads
    | events =>
      simp only [Handler.advance] at hadv
      rcases events_run (o := o) (w := w) with ⟨resp, hrun⟩ | hrun
      all_goals rw [hrun] at hadv; cases hadv; exact .reply
  | sent own => exact Moves.of_toggle hadv
  | generated id n =>
    simp only [Handler.advance] at hadv
    cases hf : o.db .createAccount with
    | none => rw [storeAccount_run id n hf] at hadv; cases hadv; exact .store hf
    | some f => rw [storeAccount_run_failed id n hf] at hadv; cases hadv; exact .storeFailed hf
  | answered c r => cases hadv
  | lost => cases hadv

theorem Moves.history {P : Platform} {o : Outcomes} {h h' : Handler} {w w' : Wallet}
    (hmove : Moves P o h w h' w') : w.history <+: w'.history := by
  cases hmove with
  | look => exact List.prefix_append _ _
  | send => exact List.prefix_append _ _
  | generate => exact List.prefix_append _ _
  | store => exact List.prefix_append _ _
  | toggle => exact List.prefix_append _ _
  | _ => exact List.prefix_refl _

end DigitalWallet
