import DigitalWallet.Laws.Server

namespace DigitalWallet

open Lib

/-- The process only stops at the end. -/
def Prog.Ends : Prog α → Prop
  | .ret _ => True
  | .throw _ => True
  | .op op k => (op.Stays ∧ ∀ r, Prog.Ends (k r)) ∨ (op = .abort ∧ ∀ r, (k r).finished = true)

theorem Prog.ends_of_all {p : Prog α} (h : p.All Op.Stays) : p.Ends := by
  induction p with
  | ret a => trivial
  | throw e => trivial
  | op op k ih => exact .inl ⟨h.1, fun r => ih r (h.2 r)⟩

theorem Seen.next_asked (i : Seen) {op : Op} (h : op.callsDB = false) (r : op.Ret) : (i.next op r).asked = i.asked := by
  cases op with
  | get => cases h
  | put => cases h
  | genAccountID => cases r <;> rfl
  | _ => rfl

-- what is left of a program that has come to its end
def ending : Exit Exn Response → Option (Prog Response)
  | .returned a => some (.ret a)
  | .threw e => some (.throw e)
  | .blocked => none

section Operations

variable {P : Platform} {V : Int → Prop} {o : Outcomes} {w w' : Wallet} {request : Request} {last : Status}
  {before after : List Thread}

theorem run_finished {p p' : Prog Response} {e : Exit Exn Response} (hfinished : p.finished = true)
    (hrun : p.run o w = (e, w')) (he : ending e = some p') : w' = w ∧ p' = p := by
  cases p with
  | ret a =>
    cases hrun
    cases he
    exact ⟨rfl, rfl⟩
  | throw e =>
    cases hrun
    cases he
    exact ⟨rfl, rfl⟩
  | op op k => cases hfinished

abbrev Own (s : Threads) (a : Act) : Prop := a.TestsOwn (fun _ => true) s

theorem leads_operate {op : Op} {k : op.Ret → Prog Response} {r : op.Ret} (ha : w.aborted = false)
    (hperform : perform o op w = some (r, w')) (hown : op = .ok → w.status.ok = last.ok) :
    Leads (Threads.act P) Own ⟨w, before ++ ⟨request, .op op k, last⟩ :: after⟩
      ⟨w', before ++ ⟨request, k r, if op.callsDB then w'.status else last⟩ :: after⟩ := by
  refine .single (l := .operate before.length o) ?_ ?_
  · intro t ht _ htest
    obtain rfl : ⟨request, .op op k, last⟩ = t := by simpa using ht
    cases op with
    | ok => exact hown rfl
    | _ => cases htest
  · simp [Threads.act, ha, Pool.advance, Thread.operate, Proc.advance, hperform, Thread.callsDB]
    rfl

theorem leads_section {Q : Seen → Response → Prop} {p p' : Prog Response} {i : Seen} {n : Nat}
    {e : Exit Exn Response} (hends : p.Ends) (hfollows : p.Follows (Seen.discipline P V fun _ => True) Q i n)
    (ha : w.aborted = false) (hlast : i.asked.isSome → w.status = last) (hrun : p.run o w = (e, w'))
    (he : ending e = some p') : ∃ last',
      Leads (Threads.act P) Own ⟨w, before ++ ⟨request, p, last⟩ :: after⟩
        ⟨w', before ++ ⟨request, p', last'⟩ :: after⟩ := by
  induction p generalizing w i n last with
  | ret a =>
    obtain ⟨rfl, rfl⟩ := run_finished rfl hrun he
    exact ⟨last, .refl _⟩
  | throw e =>
    obtain ⟨rfl, rfl⟩ := run_finished rfl hrun he
    exact ⟨last, .refl _⟩
  | op op k ih =>
    cases n with
    | zero => exact hfollows.elim
    | succ n =>
      obtain ⟨⟨-, hallows⟩, hrest⟩ := hfollows
      cases hperform : perform o op w with
      | none =>
        rw [Prog.run, Proc.exec_op_blocked hperform] at hrun
        cases hrun
        cases he
      | some rw₁ =>
        obtain ⟨r, w₁⟩ := rw₁
        rw [Prog.run, Proc.exec_op hperform] at hrun
        have hown : op = .ok → w.status.ok = last.ok := by
          rintro rfl
          rw [hlast hallows]
        have hfirst : Leads (Threads.act P) Own ⟨w, before ++ ⟨request, .op op k, last⟩ :: after⟩
            ⟨w₁, before ++ ⟨request, k r, if op.callsDB then w₁.status else last⟩ :: after⟩ :=
          leads_operate ha hperform hown
        rcases hends with ⟨hstays, hends⟩ | ⟨rfl, hfinished⟩
        · have hlast' : (i.next op r).asked.isSome → w₁.status = if op.callsDB then w₁.status else last := by
            intro hasked
            cases hop : op.callsDB with
            | true => rfl
            | false =>
              rw [Seen.next_asked i hop] at hasked
              rw [perform_status hperform hop, hlast hasked]
              rfl
          obtain ⟨last', hleads⟩ := ih r (hends r) (hrest r) ((perform_aborted hstays hperform).trans ha) hlast' hrun
          exact ⟨last', hfirst.trans hleads⟩
        · obtain ⟨rfl, rfl⟩ := run_finished (hfinished r) hrun he
          exact ⟨_, hfirst⟩

end Operations

section Handlers

variable {P : Platform} {V : Int → Prop}

/-- The program that a handler between its sections has come to. -/
def Handler.Runs (P : Platform) : Handler → Thread → Prop
  | .arrived r, t => t.prog = handler P r
  | .sent _, t => t.prog = toggleAndReport P
  | .generated id n, t => P.fits n = true ∧ t.prog = storeAccount id n
  | .answered _ resp, t => t.prog = .ret resp ∨ (∃ e, t.prog = .throw e) ∧ resp = ⟨500, ""⟩
  | .lost, t => t.prog = .throw .stopped

theorem Handler.finish_runs {c : Option Command} {x : Exit Exn Response × Wallet} {h' : Handler} {w' : Wallet}
    (h : Handler.finish c x = some (h', w')) :
    x.2 = w' ∧ ∃ p, ending x.1 = some p ∧ ∀ request last, h'.Runs P ⟨request, p, last⟩ := by
  obtain ⟨e, w⟩ := x
  cases e with
  | returned resp =>
    cases h
    exact ⟨rfl, _, rfl, fun _ _ => .inl rfl⟩
  | threw e =>
    cases e with
    | stopped =>
      cases h
      exact ⟨rfl, _, rfl, fun _ _ => rfl⟩
    | _ =>
      cases h
      exact ⟨rfl, _, rfl, fun _ _ => .inr ⟨⟨_, rfl⟩, rfl⟩⟩
  | blocked => cases h

theorem createAccount_of_ok {startAmount : Option String} {n : Int} (hcheck : checkStartAmount P startAmount = .ok n) :
    ∃ k, createAccount P startAmount = .op .genAccountID k ∧ (∀ id, k (.ok id) = storeAccount id n) ∧
      ∀ e, k (.error e) = .throw e :=
  ⟨_, by rw [createAccount, hcheck]; rfl, fun _ => rfl, fun _ => rfl⟩

theorem storeAccount_ends (id : String) (n : Int) : (storeAccount id n).Ends := by
  refine .inl ⟨trivial, fun _ => .inl ⟨trivial, fun ok => ?_⟩⟩
  cases ok
  · exact .inr ⟨rfl, fun _ => rfl⟩
  · trivial

theorem getBalance_ends (accountID : Option String) : (getBalance accountID).Ends := by
  cases accountID with
  | none => trivial
  | some key => exact .inl ⟨trivial, fun _ => .inl ⟨trivial, fun _ => .inl ⟨trivial, fun _ => trivial⟩⟩⟩

theorem events_ends : events.Ends := by
  refine .inl ⟨trivial, fun log => ?_⟩
  simp only [Proc.ret_bind]
  split <;> trivial

theorem leads_finish {Q : Seen → Response → Prop} {p : Prog Response} {i : Seen} {n : Nat} {c : Option Command}
    {h' : Handler} {w w' : Wallet} {o : Outcomes} {t : Thread} (ht : t.prog = p) (hends : p.Ends)
    (hfollows : p.Follows (Seen.discipline P V fun _ => True) Q i n) (hasked : i.asked = none)
    (ha : w.aborted = false) (hfinish : Handler.finish c (p.run o w) = some (h', w')) (before after : List Thread) :
    ∃ t', Leads (Threads.act P) Own ⟨w, before ++ t :: after⟩ ⟨w', before ++ t' :: after⟩ ∧ h'.Runs P t' := by
  obtain ⟨request, prog, last⟩ := t
  obtain rfl : prog = p := ht
  obtain ⟨rfl, p', he, hruns⟩ := Handler.finish_runs (P := P) hfinish
  obtain ⟨last', hleads⟩ : ∃ last', Leads (Threads.act P) Own ⟨w, before ++ ⟨request, prog, last⟩ :: after⟩
      ⟨(prog.run o w).2, before ++ ⟨request, p', last'⟩ :: after⟩ :=
    leads_section hends hfollows ha (by simp [hasked]) rfl he
  exact ⟨_, hleads, hruns _ _⟩

theorem Handler.Runs.advance {h h' : Handler} {t : Thread} {w w' : Wallet} {o : Outcomes} (ht : h.Runs P t)
    (ha : w.aborted = false) (hadv : h.advance P o w = some (h', w')) (before after : List Thread) :
    ∃ t', Leads (Threads.act P) Own ⟨w, before ++ t :: after⟩ ⟨w', before ++ t' :: after⟩ ∧ h'.Runs P t' := by
  have hV : P.Holds fun _ => True := ⟨fun _ => trivial, fun _ _ => trivial⟩
  cases h with
  | arrived r =>
    have hfollows := handler_follows hV r
    cases r with
    | balanceTransfer fromAccount toAccount amount txId =>
      obtain ⟨request, prog, last⟩ := t
      obtain rfl : prog = balanceTransfer P fromAccount toAccount amount txId := ht
      simp only [Handler.advance] at hadv
      cases hcheck : checkTransfer P fromAccount toAccount amount txId with
      | error resp =>
        rw [hcheck] at hadv
        cases hadv
        exact ⟨_, .refl _, .inl (by simp [balanceTransfer, hcheck])⟩
      | ok c =>
        rw [hcheck] at hadv
        cases hadv
        have hprog : balanceTransfer P fromAccount toAccount amount txId = .op (.send c) fun _ => toggleAndReport P := by
          simp [balanceTransfer, hcheck]
        rw [hprog]
        exact ⟨_, leads_operate (o := o) ha rfl (by simp), rfl⟩
    | createAccount startAmount =>
      obtain ⟨request, prog, last⟩ := t
      obtain rfl : prog = createAccount P startAmount := ht
      simp only [Handler.advance] at hadv
      cases hcheck : checkStartAmount P startAmount with
      | error resp =>
        rw [hcheck] at hadv
        cases hadv
        exact ⟨_, .refl _, .inl (by simp [createAccount, hcheck])⟩
      | ok n =>
        obtain ⟨k, hprog, hok, herror⟩ := createAccount_of_ok hcheck
        rw [hcheck] at hadv
        rw [hprog]
        cases hperform : perform o .genAccountID w with
        | none => simp [Prog.run, Proc.exec_op_blocked hperform] at hadv
        | some x =>
          obtain ⟨id, w₁⟩ := x
          cases id with
          | ok id =>
            simp only [Prog.run, Proc.exec_op hperform, Proc.exec_ret] at hadv
            cases hadv
            exact ⟨_, leads_operate ha hperform (by simp), (checkStartAmount_ok hcheck).2, hok id⟩
          | error e =>
            simp only [Prog.run, Proc.exec_op hperform, Proc.exec_ret] at hadv
            obtain ⟨rfl, p', he, hruns⟩ := Handler.finish_runs (P := P) hadv
            cases he
            refine ⟨_, leads_operate ha hperform (by simp), ?_⟩
            rw [herror]
            exact hruns _ _
    | getBalance accountID => exact leads_finish ht (getBalance_ends accountID) hfollows rfl ha hadv before after
    | events => exact leads_finish ht events_ends hfollows rfl ha hadv before after
  | sent c =>
    have hkeeps := toggleAndReport_keeps (i := { request := .balanceTransfer none none none "" }) hV rfl
    have hends := Prog.ends_of_all (hkeeps.all fun _ _ h => h.1)
    have hfollows : (toggleAndReport P).Follows (Seen.discipline P (fun _ => True) fun _ => True) (fun _ _ => True)
        { request := .balanceTransfer none none none "" } 23 := hkeeps.weaken fun _ _ h => ⟨trivial, h.2⟩
    exact leads_finish ht hends hfollows rfl ha hadv before after
  | generated id n =>
    exact leads_finish ht.2 (storeAccount_ends id n) (storeAccount_follows hV id ht.1 none) rfl ha hadv before after
  | answered c resp => cases hadv
  | lost => cases hadv

end Handlers

/-- The handlers of `gone` are over, some of them with an earlier process; those
of `live` run in the threads. -/
structure System.Runs (P : Platform) (s : System) (t : Threads) (gone : List Handler)
    (live : List (Handler × Thread)) : Prop where
  shared : t.shared = s.shared
  handlers : s.threads = gone ++ live.map Prod.fst
  threads : t.threads = live.map Prod.snd
  ended : ∀ h ∈ gone, h.restart = h
  runs : ∀ x ∈ live, x.1.Runs P x.2

section Systems

variable {P : Platform}

theorem Handler.restart_restart (h : Handler) : h.restart.restart = h.restart := by
  cases h <;> rfl

theorem Handler.advance_over {h : Handler} (hover : h.restart = h) (o : Outcomes) (w : Wallet) :
    h.advance P o w = none := by
  cases h with
  | answered c resp => rfl
  | lost => rfl
  | _ => cases hover

theorem System.Runs.step {s s' : System} {t : Threads} {l : Label} {gone : List Handler}
    {live : List (Handler × Thread)} (h : s.Runs P t gone live) (hstep : System.step P s l = some s') :
    ∃ t', Leads (Threads.act P) Own t t' ∧ ∃ gone live, s'.Runs P t' gone live := by
  obtain ⟨w, hs⟩ := s
  obtain ⟨w', ts⟩ := t
  obtain ⟨hshared, rfl, rfl, hover, hruns⟩ := h
  obtain rfl : w' = w := hshared
  cases l with
  | arrive r =>
    simp only [System.step] at hstep
    split at hstep
    · cases hstep
    · next ha =>
      cases hstep
      refine ⟨_, .single (l := .arrive r) trivial (if_neg ha), gone, live ++ [(.arrived r, .start P w' r)], rfl, by simp,
        by simp, hover, ?_⟩
      rw [List.forall_mem_append, List.forall_mem_singleton]
      exact ⟨hruns, rfl⟩
  | advance i o =>
    simp only [System.step] at hstep
    split at hstep
    · cases hstep
    · next ha =>
      obtain ⟨before, h, after, h', -, hbefore, hafter, hadv⟩ := Pool.advance_cases hstep
      have hsplit : ∃ live₁, before = gone ++ live₁ ∧ live.map Prod.fst = live₁ ++ h :: after := by
        rcases List.append_eq_append_iff.mp hbefore with ⟨live₁, hgone, hlive⟩ | ⟨gone₁, hgone, hlive⟩
        · exact ⟨live₁, hgone, hlive⟩
        · cases gone₁ with
          | nil => exact ⟨[], by simpa using hgone.symm, by simpa using hlive.symm⟩
          | cons x gone₁ =>
            obtain ⟨rfl, -⟩ := List.cons.inj hlive
            rw [Handler.advance_over (hover h (by simp [hgone]))] at hadv
            cases hadv
      obtain ⟨_, rfl, hlive⟩ := hsplit
      obtain ⟨before, rest, rfl, rfl, hrest⟩ := List.map_eq_append_iff.mp hlive
      obtain ⟨⟨h, t⟩, after, rfl, rfl, rfl⟩ := List.map_eq_cons_iff.mp hrest
      obtain ⟨t', hleads, ht'⟩ := (hruns (h, t) (by simp)).advance (by simpa using ha) hadv (before.map Prod.snd)
        (after.map Prod.snd)
      refine ⟨⟨s'.shared, before.map Prod.snd ++ t' :: after.map Prod.snd⟩, by simpa using hleads, gone,
        before ++ (h', t') :: after, rfl, by simp [hafter], by simp, hover, forall_mem_replace hruns ht'⟩
  | restart =>
    cases hstep
    refine ⟨_, .single (l := .kill none) trivial rfl, (gone ++ live.map Prod.fst).map Handler.restart, [], rfl, by simp,
      rfl, ?_, by simp⟩
    intro h hmem
    obtain ⟨h, -, rfl⟩ := List.mem_map.mp hmem
    exact h.restart_restart

end Systems

end DigitalWallet
