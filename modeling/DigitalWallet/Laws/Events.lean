import DigitalWallet.Laws.Atomicity
import DigitalWallet.Laws.Queue
import DigitalWallet.Laws.Serve

namespace DigitalWallet

open Lib

def Label.Logs : Label → Prop
  | .advance _ o => o.logThrows = false
  | _ => True

def Action.credits : Action → Bool
  | .wrote .credit _ _ => true
  | _ => false

def lastReceived : Command → List Action → Command
  | c, [] => c
  | c, a :: h => lastReceived (a.received?.getD c) h

def credited : Command → List Action → List Command
  | _, [] => []
  | c, a :: h => (if a.credits then [c] else []) ++ credited (a.received?.getD c) h

/-- The transfers applied so far.  Where the log does not throw, those are the
ones whose second `Put` went through. -/
def appliedCommands (h : List Action) : List Command := credited {} h

def appliedEvents (h : List Action) : List Event :=
  (appliedCommands h).flatMap fun c => [c.eventA, c.eventB]

def listed (es : List Event) : String := es.foldr (fun e rest => e.toString ++ "\n" ++ rest) ""

def Action.Quiet (a : Action) : Prop := a.received? = none ∧ a.credits = false

section Record

theorem credited_append (c : Command) (h h' : List Action) :
    credited c (h ++ h') = credited c h ++ credited (lastReceived c h) h' := by
  induction h generalizing c with
  | nil => rfl
  | cons a h ih => simp only [List.cons_append, credited, lastReceived, ih, List.append_assoc]

theorem lastReceived_append (c : Command) (h h' : List Action) :
    lastReceived c (h ++ h') = lastReceived (lastReceived c h) h' := by
  induction h generalizing c with
  | nil => rfl
  | cons a h ih => simp only [List.cons_append, lastReceived, ih]

theorem quiet_record {c : Command} {h : List Action} (hq : ∀ a ∈ h, a.Quiet) :
    credited c h = [] ∧ lastReceived c h = c := by
  induction h with
  | nil => exact ⟨rfl, rfl⟩
  | cons a h ih =>
    obtain ⟨hr, hc⟩ := hq a List.mem_cons_self
    have hrest := ih fun a' ha' => hq a' (List.mem_cons_of_mem _ ha')
    simpa [credited, lastReceived, hr, hc] using hrest

end Record

def Wallet.Recorded (w : Wallet) : Prop :=
  w.eventLog = (appliedCommands w.history).flatMap Command.entries

section Extend

variable {w w' : Wallet} {new : List Action}

theorem Wallet.Recorded.extend (h : w.Recorded) (hlog : w'.eventLog = w.eventLog)
    (hnew : w'.history = w.history ++ new) (hq : ∀ a ∈ new, a.Quiet) : w'.Recorded := by
  rw [Wallet.Recorded, hlog, appliedCommands, hnew, credited_append, (quiet_record hq).1,
    List.append_nil]
  exact h

theorem Wallet.Recorded.record {a : Action} (h : w.Recorded) (hlog : w'.eventLog = w.eventLog)
    (hnew : w'.history = w.history ++ [a]) (ha : a.Quiet) : w'.Recorded :=
  h.extend hlog hnew fun _ ha' => List.mem_singleton.mp ha' ▸ ha

end Extend

section Toggle

variable {P : Platform} {o : Outcomes} {w w' : Wallet} {c : Command}

theorem Action.Reads.quiet {db : AccountDB} {x : Action} (h : x.Reads db c) : x.Quiet := by
  cases x with
  | got call key text => exact ⟨rfl, rfl⟩
  | _ => exact h.elim

theorem Verdict.report_quiet (v : Verdict) : ∀ x ∈ v.report c, x.Quiet := by
  cases v <;> simp [Verdict.report, Action.Quiet, Action.received?, Action.credits]

theorem credited_writeTrail (v : Verdict) (hv : ∀ a b n, v ≠ .unlogged a b n) (log : List LogEntry) :
    v.eventLog c log = log ++ (credited c (writeTrail P c v)).flatMap Command.entries ∧
      lastReceived c (writeTrail P c v) = c := by
  cases v with
  | unlogged a b n => exact absurd rfl (hv a b n)
  | _ => simp [writeTrail, credited, lastReceived, Action.credits, Action.received?, Command.entries]

theorem verdict_logged (ho : o.logThrows = false) (db : AccountDB) (a b n : Int) :
    verdict P o db c ≠ .unlogged a b n := by
  rcases verdict_settles P o db c with hnone | ⟨-, -, a', b', n', hv⟩
  · intro heq
    rw [heq] at hnone
    cases hnone
  · rw [hv]
    unfold settlement
    split
    · simp
    · simp
    · next hthrows => cases ho.symm.trans hthrows
    · simp

theorem Trail.credited {db : AccountDB} {trail : List Action} (ho : o.logThrows = false)
    (h : Trail P o db c trail) (log : List LogEntry) :
    (verdict P o db c).eventLog c log =
      log ++ (DigitalWallet.credited c trail).flatMap Command.entries ∧ lastReceived c trail = c := by
  obtain ⟨reads, rfl, hreads⟩ := h.writes
  have hquiet : ∀ x ∈ reads, x.Quiet := by
    intro x hx
    rcases hreads x hx with hx | rfl
    · exact hx.quiet
    · exact ⟨rfl, rfl⟩
  obtain ⟨hcredited, hlast⟩ := quiet_record (c := c) hquiet
  rw [credited_append, lastReceived_append, hcredited, hlast, List.nil_append]
  exact credited_writeTrail _ (verdict_logged ho db) log

theorem Wallet.Recorded.toggle {q : MessageQueue Command} {trail : List Action} (h : w.Recorded)
    (ho : o.logThrows = false) (htrail : Trail P o w.accountDB c trail) :
    Wallet.Recorded ((verdict P o w.accountDB c).wallet P c
      { w with commandQueue := q, commandToProcess := c }
      (.received c :: .entered .validate c :: trail ++ (verdict P o w.accountDB c).report c)) := by
  obtain ⟨hlog, hlast⟩ := htrail.credited ho w.eventLog
  have hreport := (quiet_record (c := c) (Verdict.report_quiet (c := c) (verdict P o w.accountDB c))).1
  have hrecorded : w.eventLog = (DigitalWallet.credited {} w.history).flatMap Command.entries := h
  simp only [Wallet.Recorded, Verdict.wallet, appliedCommands, credited_append, List.cons_append,
    DigitalWallet.credited, Action.received?, Action.credits, Option.getD_some,
    Option.getD_none, hlast, hreport, hlog, List.append_nil, List.nil_append, List.flatMap_append,
    Bool.false_eq_true, if_false]
  rw [← hrecorded]

end Toggle

section Run

variable {P : Platform} {o : Outcomes}

theorem Moves.recorded {t t' : Handler} {w w' : Wallet} (ho : o.logThrows = false)
    (hmove : Moves P o t w t' w') (h : w.Recorded) : w'.Recorded := by
  cases hmove with
  | @look key _ _ _ reads hreads =>
    refine h.extend rfl rfl fun a ha => ?_
    obtain ⟨value, rfl⟩ := hreads a ha
    exact ⟨rfl, rfl⟩
  | send => exact h.record rfl rfl ⟨rfl, rfl⟩
  | generate => exact h.record rfl rfl ⟨rfl, rfl⟩
  | store => exact h.record rfl rfl ⟨rfl, rfl⟩
  | toggle _ _ _ htrail => exact h.toggle ho htrail
  | _ => exact h

theorem System.recorded_step {s s' : System} {l : Label} (h : s.shared.Recorded) (hl : l.Logs)
    (hstep : System.step P s l = some s') : s'.shared.Recorded := by
  rcases System.step_cases hstep with
    ⟨r, rfl, rfl⟩ | ⟨i, o, before, t, after, t', rfl, -, -, -, hmove⟩ | ⟨rfl, rfl⟩
  · exact h
  · exact hmove.recorded hl h
  · exact h

theorem System.recorded_run {ls : List Label} {s : System} (hlogs : ∀ l ∈ ls, l.Logs)
    (hrun : run (System.step P) (System.init .empty) ls = some s) : s.shared.Recorded :=
  run_invariant (I := fun s => s.shared.Recorded) (C := fun _ l => l.Logs)
    (fun hi hl hstep => System.recorded_step hi hl hstep) rfl
    (Meets.of_forall (fun l hl _ => hlogs l hl) _) hrun

end Run

section Endpoint

variable {P : Platform} {o : Outcomes} {w : Wallet}

theorem listed_append (es es' : List Event) : listed (es ++ es') = listed es ++ listed es' := by
  induction es with
  | nil => exact (String.empty_append).symm
  | cons e es ih =>
    simp only [listed, List.cons_append, List.foldr_cons, String.append_assoc] at ih ⊢
    rw [ih]

theorem listed_eq_empty {es : List Event} : listed es = "" ↔ es = [] := by
  cases es with
  | nil => simp [listed]
  | cons e es =>
    have hne : listed (e :: es) ≠ "" := by
      intro h
      have := congrArg String.toList h
      simp only [listed, List.foldr_cons, String.toList_append, String.toList_empty,
        List.append_eq_nil_iff] at this
      exact absurd this.1.2 (by decide)
    simp [hne]

theorem append_eq_self {s t : String} : s = s ++ t ↔ t = "" := by
  rw [← String.toList_inj, String.toList_append, List.self_eq_append_right, String.toList_eq_nil_iff]

theorem events_run_of_read {event1 event2 : Event}
    (h : readEvents w.eventLog = .ok (event1, event2)) :
    (handler P .events).run o w = (.returned { body := listed [event1, event2] }, w) := by
  have hread : ∀ k : List LogEntry → Prog Response,
      Prog.run o (.op .readLog k) w = (k w.eventLog).run o w := fun _ => rfl
  simp only [handler, events, Proc.bind_eq, Proc.op_bind, Proc.ret_bind, hread, h, listed,
    List.foldr_cons, List.foldr_nil, String.append_empty, String.append_assoc]
  rfl

/-- The events endpoint lists what the transfers applied so far have logged just
when there is one of them: an absent log is printed as two blank events, and of a
longer one only the first archive is read. -/
theorem events_lists_log_iff (P : Platform) {ls : List Label} {s : System}
    (hlogs : ∀ l ∈ ls, l.Logs) (hrun : run (System.step P) (System.init .empty) ls = some s)
    (o : Outcomes) :
    ((handler P .events).run o s.shared).1 =
        .returned { body := listed (appliedEvents s.shared.history) } ↔
      (appliedCommands s.shared.history).length = 1 := by
  have hlog : s.shared.eventLog = _ := System.recorded_run hlogs hrun
  rw [appliedEvents]
  cases hc : appliedCommands s.shared.history with
  | nil =>
    have hread : readEvents s.shared.eventLog = .ok ({}, {}) := by rw [hlog, hc]; rfl
    rw [events_run_of_read hread]
    simp [listed_eq_empty, show listed [] = "" from rfl]
  | cons c cs =>
    have hread : readEvents s.shared.eventLog = .ok (c.eventA, c.eventB) := by rw [hlog, hc]; rfl
    rw [events_run_of_read hread, List.flatMap_cons, listed_append, Exit.returned.injEq,
      Response.mk.injEq, append_eq_self, listed_eq_empty]
    cases cs with
    | nil => simp
    | cons d ds => simp

def exampleTransfers : List Label :=
  exampleRun ++
    [.advance 2 .succeed,
      .arrive (.balanceTransfer (some "700000001") (some "700000002") (some "5") "tx-2"),
      .advance 3 .succeed, .advance 3 .succeed]

def exampleAfter (n : Nat) : System :=
  (run (System.step (.int32 exampleText)) (System.init .empty) (exampleTransfers.take n)).getD
    (System.init .empty)

theorem exampleTransfers_logs : ∀ l ∈ exampleTransfers, l.Logs := by
  simp [exampleTransfers, exampleRun, Label.Logs, Outcomes.succeed]

theorem events_lists_log_example :
    ((handler (.int32 exampleText) .events).run .succeed (exampleAfter 9).shared).1 =
      .returned { body := listed (appliedEvents (exampleAfter 9).shared.history) } := by
  have hrun : run (System.step (.int32 exampleText)) (System.init .empty) (exampleTransfers.take 9) =
      some (exampleAfter 9) := by decide +kernel
  have hlogs : ∀ l ∈ exampleTransfers.take 9, l.Logs := fun l hl =>
    exampleTransfers_logs l (List.mem_of_mem_take hl)
  exact (events_lists_log_iff (.int32 exampleText) hlogs hrun .succeed).mpr (by decide +kernel)

theorem events_misses_log :
    (run (System.step (.int32 exampleText)) (System.init .empty) [] = some (System.init .empty) ∧
      appliedCommands (System.init .empty).shared.history = [] ∧
      ((handler (.int32 exampleText) .events).run .succeed (System.init .empty).shared).1 ≠
        .returned { body := listed (appliedEvents (System.init .empty).shared.history) }) ∧
    (∀ l ∈ exampleTransfers, l.Logs) ∧
      run (System.step (.int32 exampleText)) (System.init .empty) exampleTransfers =
        some (exampleAfter 12) ∧
      ((handler (.int32 exampleText) .events).run .succeed (exampleAfter 12).shared).1 =
        .returned { body := listed [exampleCommand.eventA, exampleCommand.eventB] } ∧
      appliedEvents (exampleAfter 12).shared.history =
        [exampleCommand.eventA, exampleCommand.eventB,
          { exampleCommand.eventA with amount := "-5", parentTxId := "tx-2" },
          { exampleCommand.eventB with amount := "+5", parentTxId := "tx-2" }] := by
  refine ⟨⟨rfl, rfl, ?_⟩, exampleTransfers_logs, ?_, ?_, ?_⟩ <;> decide +kernel

end Endpoint

end DigitalWallet
