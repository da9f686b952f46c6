import DigitalWallet.Laws.Atomicity
import DigitalWallet.Laws.Paths

namespace DigitalWallet

open Lib

def Command.Printed (c : Command) : Prop :=
  ∃ n : Int, 1 ≤ n ∧ n ≤ 2 ^ 31 - 1 ∧ c.amount = Cpp.toString n

structure Wallet.Parses (w : Wallet) : Prop where
  stored : Texts (fun n => fits32 n = true) w.accountDB
  queued : ∀ c ∈ w.commandQueue.messages, c.Printed
  processed : w.currentState ≠ .listen → w.commandToProcess.Printed

structure Wallet.Carries (w : Wallet) : Prop where
  stored : Texts (fun n => fits32 n = true) w.accountDB
  queued : ∀ c ∈ w.commandQueue.messages, c.Printed
  command : w.commandToProcess.Printed

def Op.Prints : Op → Prop
  | .put _ _ value => ∃ n, fits32 n = true ∧ value = Cpp.toString n
  | .receive => False
  | .send c => c.Printed
  | _ => True

theorem Wallet.Carries.parses {w : Wallet} (h : w.Carries) : w.Parses :=
  ⟨h.stored, h.queued, fun _ => h.command⟩

theorem Accepted.printed {text : Status → String} {c : Command} (h : Accepted (.int32 text) c) :
    c.Printed := by
  obtain ⟨n, hpos, hfits, hn, -⟩ := h
  have := (fits32_iff.mp hfits).2
  exact ⟨n, by omega, by omega, hn⟩

section Operations

variable {o : Outcomes} {w w' : Wallet}

theorem Op.Prints.carries {op : Op} {r : op.Ret} (hop : op.Prints) (h : w.Carries)
    (hperform : perform o op w = some (r, w')) : w'.Carries := by
  cases op with
  | put call key value =>
    obtain ⟨n, hn, rfl⟩ := hop
    cases hperform
    refine ⟨?_, h.queued, h.command⟩
    cases o.db call with
    | none => exact h.stored.insert key hn
    | some f => exact h.stored
  | receive => exact hop.elim
  | send c =>
    cases hperform
    refine ⟨h.stored, fun c' hc' => ?_, h.command⟩
    rcases List.mem_append.mp hc' with hc' | hc'
    · exact h.queued c' hc'
    · exact List.mem_singleton.mp hc' ▸ hop
  | append eventA eventB =>
    simp only [perform] at hperform
    split at hperform <;> cases hperform <;> exact ⟨h.stored, h.queued, h.command⟩
  | wait =>
    simp only [perform] at hperform
    split at hperform <;> cases hperform
    exact ⟨h.stored, h.queued, h.command⟩
  | genAccountID =>
    simp only [perform] at hperform
    split at hperform <;> cases hperform <;> exact ⟨h.stored, h.queued, h.command⟩
  | _ => cases hperform; exact ⟨h.stored, h.queued, h.command⟩

variable {text : Status → String}

theorem Op.Free.prints {op : Op} {i : Seen} (hop : op.Free)
    (h : i.Allows (.int32 text) (fun n => fits32 n = true) op) : op.Prints := by
  cases op with
  | put call key value => exact h.1
  | receive => exact hop
  | send c => exact Accepted.printed h
  | _ => trivial

theorem validate_prints : (ServiceValidate.process (.int32 text)).All Op.Prints :=
  (validate_keeps (i := .started) (Platform.int32_holds text) rfl rfl).all
    fun _ _ h => h.1.prints h.2

theorem toggle_parses (h : w.Parses) :
    (Service.toggle (.int32 text)).Wp (perform o) Wallet.Parses (fun _ => Wallet.Parses) w := by
  simp only [Service.toggle, Proc.bind_eq, Proc.op_bind, Proc.ret_bind]
  refine ⟨h, fun state w' hperform => ?_, fun _ => h⟩
  cases hperform
  cases w.currentState with
  | listen =>
    refine ⟨h, fun _ w' hperform => ?_, fun _ => h⟩
    simp only [perform, Option.map_eq_some_iff, Prod.mk.injEq, true_and] at hperform
    obtain ⟨⟨c, q⟩, hreceive, rfl⟩ := hperform
    have hq := MessageQueue.receive_eq_some.mp hreceive
    have hcarries : Wallet.Carries { w with
        commandQueue := q, commandToProcess := c, history := w.history ++ [.received c] } := by
      refine ⟨h.stored, fun c' hc' => h.queued c' ?_, h.queued c ?_⟩
      · rw [hq]; exact List.mem_append_left _ hc'
      · rw [hq]; exact List.mem_append_right _ (List.mem_singleton_self c)
    have hrest : Proc.All Op.Prints (do Prog.setState .validate; ServiceValidate.process (.int32 text)) :=
      ⟨trivial, fun _ => validate_prints⟩
    exact (hrest.wp (I := Wallet.Carries) (fun hop hc hs => hop.carries hc hs) hcarries).mono
      (fun _ h => h.parses) (fun _ _ h => h.parses)
  | validate => exact ⟨h, h⟩
  | apply => exact ⟨h, h⟩

theorem toggleAndReport_parses (h : w.Parses) :
    (toggleAndReport (.int32 text)).Wp (perform o) Wallet.Parses (fun _ => Wallet.Parses) w := by
  simp only [toggleAndReport, Proc.bind_eq, Proc.op_bind, Proc.ret_bind]
  refine ⟨h, fun _ w' hperform => ?_, fun _ => h⟩
  have h' : w'.Parses := by
    simp only [perform] at hperform
    split at hperform <;> cases hperform
    exact ⟨h.stored, h.queued, h.processed⟩
  refine Proc.Wp.ensuring ((toggle_parses h').bind fun _ w _ h => ?_) fun w _ h => ?_
  · refine ⟨h, fun st w' hperform => ?_, fun _ => h⟩
    cases hperform
    have hreported : Wallet.Parses (w.record (.reported w.commandToProcess w.status)) :=
      ⟨h.stored, h.queued, h.processed⟩
    exact ⟨hreported, hreported⟩
  · refine ⟨h, fun _ w' hperform => ?_, fun _ => h⟩
    cases hperform
    have hfree : Wallet.Parses { w with cvM := false } := ⟨h.stored, h.queued, h.processed⟩
    exact ⟨hfree, hfree⟩

end Operations

section Run

variable {text : Status → String} {s s' : System}

theorem Moves.processed {o : Outcomes} {t t' : Handler} {w w' : Wallet}
    (hmove : Moves (.int32 text) o t w t' w') (hq : ∀ c ∈ w.commandQueue.messages, c.Printed)
    (h : w.currentState ≠ .listen → w.commandToProcess.Printed) :
    w'.currentState ≠ .listen → w'.commandToProcess.Printed := by
  cases hmove with
  | @toggle own c q trail _ _ _ hqueue _ =>
    intro _
    exact hq c (by rw [hqueue]; exact List.mem_append_right _ (List.mem_singleton_self c))
  | _ => exact h

theorem System.Sane.printed (hs : s.Sane (.int32 text) (fun n => fits32 n = true)) :
    ∀ c ∈ s.shared.commandQueue.messages, c.Printed := fun c hc => (hs.queue c hc).printed

theorem System.processed_step {l : Label} (hs : s.Sane (.int32 text) (fun n => fits32 n = true))
    (h : s.shared.currentState ≠ .listen → s.shared.commandToProcess.Printed)
    (hstep : System.step (.int32 text) s l = some s') :
    s'.shared.currentState ≠ .listen → s'.shared.commandToProcess.Printed := by
  rcases System.step_cases hstep with
    ⟨r, rfl, rfl⟩ | ⟨i, o, before, t, after, t', rfl, -, -, -, hmove⟩ | ⟨rfl, rfl⟩
  · exact h
  · exact hmove.processed hs.printed h
  · intro hlisten
    exact absurd rfl hlisten

theorem System.parses (hr : Reachable (System.step (.int32 text)) (System.init .empty) s) :
    s.shared.Parses := by
  have hP := Platform.int32_holds text
  have hinv := hr.invariant
    (I := fun s => s.Sane (.int32 text) (fun n => fits32 n = true) ∧
      (s.shared.currentState ≠ .listen → s.shared.commandToProcess.Printed))
    (fun hi hstep => ⟨hi.1.step hP hstep, System.processed_step hi.1 hi.2 hstep⟩)
    ⟨.init, fun hlisten => absurd rfl hlisten⟩
  exact ⟨hinv.1.texts, hinv.1.printed, hinv.2⟩

theorem toggleAndReport_reads (hs : s.Sane (.int32 text) (fun n => fits32 n = true)) (o : Outcomes)
    (e : Cpp.StoiError) :
    ((toggleAndReport (.int32 text)).run o s.shared).1 ≠ .threw (.stoi e) := by
  by_cases hl : s.shared.currentState = .listen
  · cases hq : s.shared.commandQueue.receive with
    | none =>
      rw [toggleAndReport_starved hs.lock hl (MessageQueue.receive_eq_none.mp hq)]
      simp
    | some cq =>
      obtain ⟨c, q⟩ := cq
      have hq := MessageQueue.receive_eq_some.mp hq
      obtain ⟨trail, -, hrun⟩ := toggleAndReport_run (P := .int32 text) (o := o) hs.lock hl hq
      rw [hrun]
      rcases verdict_sane (o := o) hs hq with ⟨st, hv⟩ | ⟨a, b, n, -, -, -, -, hv⟩
      · rw [hv]
        simp [Verdict.response]
      · rw [hv]
        unfold settlement
        split <;> simp [Verdict.response]
  · rw [toggleAndReport_blocked (.inr hl)]
    simp

end Run

/-- Printed numbers parse back: those stored, those queued and those of a command
being processed, in every state the server reaches and in every state on the way
of a toggle from there.  So no `std::stoi` of VALIDATE or APPLY throws. -/
theorem numbers_parse_back (text : Status → String) {s : System}
    (hr : Reachable (System.step (.int32 text)) (System.init .empty) s) :
    s.shared.Parses ∧
      (∀ n, fits32 n = true → Cpp.stoi fits32 (Cpp.toString n) = .ok n) ∧
      ∀ o, (toggleAndReport (.int32 text)).Wp (perform o) Wallet.Parses (fun _ => Wallet.Parses)
          s.shared ∧
        ∀ e, ((toggleAndReport (.int32 text)).run o s.shared).1 ≠ .threw (.stoi e) := by
  have hs := System.Sane.of_reachable (Platform.int32_holds text) hr
  have hparses := System.parses hr
  refine ⟨hparses, fun n hn => ?_, fun o => ⟨toggleAndReport_parses hparses, ?_⟩⟩
  · rw [Cpp.stoi_toString, hn, if_pos rfl]
  · exact toggleAndReport_reads hs o

theorem numbers_parse_back_example :
    exampleState.shared.Parses ∧
      ∀ e, ((toggleAndReport (.int32 exampleText)).run throwingLog exampleState.shared).1 ≠
        .threw (.stoi e) := by
  have h := numbers_parse_back exampleText exampleState_reachable
  exact ⟨h.1, (h.2.2 throwingLog).2⟩

end DigitalWallet
