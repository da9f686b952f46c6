import DigitalWallet.Laws.Atomicity
import DigitalWallet.Laws.Stages
import Mathlib.Data.List.Permutation

/-! Any number of handlers, interleaved operation by operation.  Where the
transfers read back their own statuses, the files end as some serial order of
the requests leaves them. -/

namespace DigitalWallet

open Lib

def Thread.tests (t : Thread) : Bool :=
  match t.request, t.prog with
  | .balanceTransfer _ _ _ _, .op .ok _ => true
  | _, _ => false

/-- What it finds there is what its own last database call stored. -/
def ReadsOwn (s : Threads) (i : Nat) : Prop :=
  ∀ t ∈ s.threads[i]?, t.tests = true → s.shared.status.ok = t.last.ok

instance (s : Threads) (i : Nat) : Decidable (ReadsOwn s i) :=
  inferInstanceAs (Decidable (∀ t ∈ s.threads[i]?, t.tests = true → s.shared.status.ok = t.last.ok))

instance (s : Threads) : Decidable s.finished :=
  inferInstanceAs (Decidable (∀ t ∈ s.threads, t.prog.finished = true))

structure Tracked (P : Platform) (b : Books) (rs : List Request) (s : Threads) (g : Ledger)
    (ts : List (Thread × Stage)) : Prop where
  threads : s.threads = ts.map Prod.fst
  arrived : ts.map (·.1.request) = rs
  covers : Covers P b s.shared g
  stages : ∀ x ∈ ts, x.2.At P b s.shared g x.1
  unstored : g.unstored.Perm (ts.flatMap (·.2.unstored))
  queued : g.queued.length = ts.countP (·.2.queued)
  lock : ts.countP (·.2.holds) = s.shared.cvM.toNat
  requests : (ts.flatMap (fun x => x.2.pending x.1.request) ++ g.requests).Perm
    (rs.filter (·.effective P))

namespace Tracked

variable {P : Platform} {text : Status → String} {b : Books} {rs : List Request} {s : Threads}
  {g g' : Ledger} {before after : List (Thread × Stage)} {t t' : Thread} {σ σ' : Stage} {w' : Wallet}

theorem goes (h : Tracked P b rs s g (before ++ (t, σ) :: after)) (hr : t'.request = t.request)
    (hgoes : Goes P b t σ s.shared g t' σ' w' g') :
    Tracked P b rs ⟨w', before.map Prod.fst ++ t' :: after.map Prod.fst⟩ g'
      (before ++ (t', σ') :: after) := by
  have hothers : ∀ x ∈ before ++ after, x.2.At P b w' g' x.1 := by
    intro x hx
    have hstage := h.stages x (by
      rcases List.mem_append.mp hx with hx | hx <;> simp [hx])
    rcases hgoes.frame with hrely | hheld
    · exact hstage.interferes hrely
    · refine hstage.of_not_holds ?_
      have hlock := h.lock
      rw [countP_split, ← hheld, Nat.add_eq_right, List.countP_eq_zero] at hlock
      exact eq_false_of_ne_true (hlock x hx)
  constructor
  · simp
  · rw [← h.arrived]
    simp [hr]
  · exact hgoes.covers
  · intro x hx
    rcases List.mem_append.mp hx with hx | hx
    · exact hothers x (by simp [hx])
    · rcases List.mem_cons.mp hx with rfl | hx
      · exact hgoes.stage
      · exact hothers x (by simp [hx])
  · have hold := h.unstored
    have hnew := hgoes.unstored
    rw [List.perm_iff_count] at hold hnew ⊢
    intro a
    have hold := hold a
    have hnew := hnew a
    simp only [List.flatMap_append, List.flatMap_cons, List.count_append] at hold hnew ⊢
    omega
  · have hold := h.queued
    have hnew := hgoes.queued
    simp only [countP_split] at hold ⊢
    omega
  · have hold := h.lock
    have hnew := hgoes.lock
    simp only [countP_split] at hold ⊢
    omega
  · have hold := h.requests
    have hnew := hgoes.requests
    rw [List.perm_iff_count] at hold hnew ⊢
    intro a
    have hold := hold a
    have hnew := hnew a
    simp only [List.flatMap_append, List.flatMap_cons, List.count_append, hr] at hold hnew ⊢
    omega

theorem held (h : Tracked P b rs s g (before ++ (t, σ) :: after)) (hσ : σ.holds = true) :
    s.shared.cvM = true := by
  have hlock := h.lock
  rw [countP_split, hσ] at hlock
  cases hl : s.shared.cvM with
  | true => rfl
  | false => simp [hl] at hlock

theorem advance (h : Tracked (.int32 text) b rs s g (before ++ (t, σ) :: after))
    (hown : t.tests = true → s.shared.status.ok = t.last.ok) (hadv : t.advance s.shared = some (t', w')) :
    ∃ σ' g', Goes (.int32 text) b t σ s.shared g t' σ' w' g' := by
  have hstage := h.stages (t, σ) (by simp)
  cases σ with
  | unsent => exact Goes.of_unsent h.covers hstage hadv
  | waiting => exact Goes.of_waiting h.covers hstage hadv
  | entering => exact Goes.of_entering h.covers (h.held rfl) hstage hadv
  | receiving => exact Goes.of_receiving h.covers (h.held rfl) hstage hadv
  | holding =>
    refine Goes.of_holding h.covers (h.held rfl) hstage (fun k hk => ?_) hadv
    obtain ⟨c, hc⟩ := Option.isSome_iff_exists.mp hstage.1
    cases hr : t.request with
    | balanceTransfer => exact hown (by simp [Thread.tests, hr, hk])
    | _ => rw [hr] at hc; cases hc
  | drawing => exact Goes.of_drawing h.covers hstage hadv
  | storing id value =>
    refine Goes.of_storing h.covers ?_ hstage hadv
    rw [h.unstored.mem_iff]
    simp [Stage.unstored]
  | idle => exact Goes.of_idle h.covers hstage hadv

theorem step {s' : Threads} {ts : List (Thread × Stage)} {i : Nat}
    (h : Tracked (.int32 text) b rs s g ts) (hown : ReadsOwn s i) (hstep : Threads.step s i = some s') :
    ∃ g' ts', Tracked (.int32 text) b rs s' g' ts' := by
  simp only [Threads.step] at hstep
  split at hstep
  · cases hstep
  · obtain ⟨before, t, after, t', hi, ht, ht', hadv⟩ := Pool.advance_cases hstep
    rw [h.threads] at ht
    obtain ⟨before, rest, rfl, rfl, hrest⟩ := List.map_eq_append_iff.mp ht
    obtain ⟨⟨t, σ⟩, after, rfl, rfl, rfl⟩ := List.map_eq_cons_iff.mp hrest
    obtain ⟨σ', g', hgoes⟩ := h.advance (hown _ hi) hadv
    have htracked := h.goes (Thread.advance_request hadv) hgoes
    rw [← ht'] at htracked
    exact ⟨g', before ++ (t', σ') :: after, htracked⟩

end Tracked

/-- A service at rest, with the seed file ahead of the accounts. -/
structure Wallet.Quiet (w : Wallet) : Prop where
  ready : w.Ready
  queue : w.commandQueue.messages = []
  fresh : ∃ k : Int, 0 ≤ k ∧ w.seedFile.number = some k ∧ ∀ m, k < m → accountID m ∉ w.accountDB

namespace Wallet.Quiet

variable {text : Status → String} {w : Wallet}

theorem empty : Wallet.empty.Quiet where
  ready := ⟨rfl, rfl, Texts.empty⟩
  queue := rfl
  fresh := ⟨0, by omega, rfl, fun _ _ => Finmap.notMem_empty⟩

theorem serve (hw : w.Quiet) (r : Request) : (serve (.int32 text) w r).Quiet := by
  have hready : (DigitalWallet.serve (.int32 text) w r).Ready := (books_serve hw.ready r).2
  obtain ⟨k, hk, hnumber, hfresh⟩ := hw.fresh
  have hserves := serves (P := .int32 text) hw.ready.lock r
  generalize DigitalWallet.serve (.int32 text) w r = w' at hserves hready
  cases hserves with
  | idle => exact hw
  | look => exact ⟨hready, hw.queue, hw.fresh⟩
  | create _ _ hnumber' =>
    cases hnumber.symm.trans hnumber'
    refine ⟨hready, hw.queue, k + 1, by omega, rfl, fun m hm hmem => ?_⟩
    rcases Finmap.mem_insert.mp hmem with heq | hmem
    · have := accountID_inj (by omega) (by omega) heq
      omega
    · exact hfresh m (by omega) hmem
  | transfer _ _ _ =>
    refine ⟨hready, hw.queue, k, hk, hnumber, fun m hm hmem => ?_⟩
    exact hfresh m hm ((verdict_mem _ _ _ _ _).mp hmem)
  | wait _ hlisten => exact absurd hw.ready.listen hlisten

theorem serveAll (hw : w.Quiet) (rs : List Request) : (serveAll (.int32 text) w rs).Quiet := by
  induction rs generalizing w with
  | nil => exact hw
  | cons r rs ih => exact ih (hw.serve r)

end Wallet.Quiet

theorem Neutral.handler {P : Platform} {r : Request} (h : r.effective P = false) :
    Neutral (handler P r) := by
  simp only [Request.effective, Bool.or_eq_false_iff] at h
  cases r with
  | createAccount startAmount =>
    cases hcheck : checkStartAmount P startAmount with
    | error e => simp [DigitalWallet.handler, createAccount, hcheck, Neutral]
    | ok n => simp [Request.startAmount, hcheck, Except.toOption] at h
  | balanceTransfer fromAccount toAccount amount txId =>
    cases hcheck : checkTransfer P fromAccount toAccount amount txId with
    | error e => simp [DigitalWallet.handler, balanceTransfer, hcheck, Neutral]
    | ok c => simp [Request.command, hcheck, Except.toOption] at h
  | getBalance accountID =>
    cases accountID with
    | none => trivial
    | some key => exact ⟨trivial, fun _ => ⟨trivial, fun _ => ⟨trivial, fun _ => trivial⟩⟩⟩
  | events =>
    refine ⟨trivial, fun log => ?_⟩
    simp only [Proc.ret_bind]
    cases readEvents log <;> trivial

theorem Stage.initial_at {P : Platform} {b : Books} {w : Wallet} {g : Ledger} (r : Request) :
    (Stage.initial P r).At P b w g (Thread.start P w r) := by
  unfold Stage.initial
  split
  · next h =>
    cases r with
    | balanceTransfer fromAccount toAccount amount txId =>
      cases hcheck : checkTransfer P fromAccount toAccount amount txId with
      | error e => simp [Request.command, hcheck, Except.toOption] at h
      | ok c =>
        refine ⟨c, by simp [Thread.start, Request.command, hcheck, Except.toOption], ?_⟩
        simp [Thread.start, handler, balanceTransfer, hcheck]
    | _ => cases h
  · next hcommand =>
    split
    · next h =>
      obtain ⟨n, hn⟩ := Option.isSome_iff_exists.mp h
      obtain ⟨startAmount, rfl, hcheck⟩ := Request.startAmount_eq_some hn
      exact ⟨startAmount, rfl, ⟨n, hcheck⟩, rfl⟩
    · next hstart =>
      refine Neutral.handler ?_
      simp [Request.effective, hcommand, hstart]

@[simp] theorem Thread.start_request (P : Platform) (w : Wallet) (r : Request) :
    (Thread.start P w r).request = r := rfl

theorem Stage.initial_pending (P : Platform) (r : Request) :
    (Stage.initial P r).pending r = if r.effective P then [r] else [] := by
  unfold Stage.initial Request.effective
  cases (r.command P).isSome <;> cases (r.startAmount P).isSome <;> rfl

theorem Tracked.init {P : Platform} {w : Wallet} (hw : w.Quiet) (rs : List Request) :
    Tracked P w.books rs (Threads.init P w rs) .empty
      (rs.map fun r => (Thread.start P w r, Stage.initial P r)) := by
  have hidle : ∀ r, (Stage.initial P r).unstored = [] ∧ (Stage.initial P r).queued = false ∧
      (Stage.initial P r).holds = false := by
    intro r
    unfold Stage.initial
    split
    · exact ⟨rfl, rfl, rfl⟩
    · split <;> exact ⟨rfl, rfl, rfl⟩
  constructor
  · simp [Threads.init]
  · simp [Function.comp_def]
  · exact {
      sound := ⟨hw.fresh, hw.ready.texts, by simp [Ledger.empty], by simp [Ledger.empty],
        by simp [Ledger.empty], by simp [Ledger.empty], fun key hkey => absurd hkey Finmap.notMem_empty⟩
      accountDB := fun key => rfl
      eventLog := rfl
      seedFile := rfl
      queue := by simp [Threads.init, hw.queue, Ledger.empty]
      idle := fun _ => ⟨hw.ready.listen, rfl, rfl⟩ }
  · intro x hx
    obtain ⟨r, -, rfl⟩ := List.mem_map.mp hx
    exact Stage.initial_at r
  · simp [Ledger.empty, hidle]
  · simp [Ledger.empty, hidle, Function.comp_def]
  · simp [Threads.init, hw.ready.lock, hidle, Function.comp_def]
  · simp only [Ledger.requests, Ledger.empty, List.append_nil, Option.toList_none]
    refine List.Perm.of_eq ?_
    induction rs with
    | nil => rfl
    | cons r rs ih =>
      simp only [List.map_cons, List.flatMap_cons, ih, Thread.start_request, Stage.initial_pending,
        List.filter_cons]
      split <;> rfl

namespace Tracked

variable {P : Platform} {b : Books} {rs : List Request} {s : Threads} {g : Ledger}
  {ts : List (Thread × Stage)}

theorem idle (h : Tracked P b rs s g ts) (hfin : s.finished) : ∀ x ∈ ts, x.2 = .idle := by
  intro x hx
  obtain ⟨t, σ⟩ := x
  have hstage := h.stages _ hx
  have hfin : t.prog.finished = true :=
    hfin t (by rw [h.threads]; exact List.mem_map_of_mem hx)
  cases σ with
  | unsent =>
    obtain ⟨c, -, hprog⟩ := hstage
    rw [hprog] at hfin
    cases hfin
  | waiting => rw [hstage.2, toggleAndReport_eq] at hfin; cases hfin
  | entering =>
    obtain ⟨k, hentering, -⟩ := entering_eq P
    rw [hstage.2.1, hentering] at hfin
    cases hfin
  | receiving => rw [hstage.2.1] at hfin; cases hfin
  | holding =>
    obtain ⟨before, after, rfl⟩ := List.append_of_mem hx
    have hlock := h.held rfl
    obtain ⟨-, hsafe⟩ := hstage
    revert hsafe hfin
    cases t.prog with
    | ret a => intro _ hsafe; cases hlock.symm.trans hsafe
    | throw e => intro _ hsafe; exact hsafe.elim
    | op o k => intro hfin; cases hfin
  | drawing =>
    obtain ⟨startAmount, -, ⟨n, hn⟩, hprog⟩ := hstage
    simp only [createAccount, hn] at hprog
    rw [hprog] at hfin
    cases hfin
  | storing id value =>
    obtain ⟨n, -, hprog⟩ := hstage
    rw [hprog] at hfin
    cases hfin
  | idle => rfl

theorem settled (h : Tracked P b rs s g ts) (hfin : s.finished) :
    s.shared.books = g.books P b ∧ s.shared.Quiet ∧
      (g.absent ++ (g.creates ++ g.decided)).Perm (rs.filter (·.effective P)) := by
  have hidle := h.idle hfin
  have hunstored : g.unstored = [] := by
    refine List.Perm.eq_nil (h.unstored.trans (List.Perm.of_eq ?_))
    refine List.flatMap_eq_nil_iff.mpr fun x hx => ?_
    rw [hidle x hx]
    rfl
  have hqueued : g.queued = [] := by
    rw [← List.length_eq_zero_iff, h.queued, List.countP_eq_zero]
    intro x hx
    simp [hidle x hx, Stage.queued]
  have hlock : s.shared.cvM = false := by
    rw [← Bool.toNat_eq_zero, ← h.lock, List.countP_eq_zero]
    intro x hx
    simp [hidle x hx, Stage.holds]
  obtain ⟨hlisten, hinflight, hmoved⟩ := h.covers.idle hlock
  have hdb : s.shared.accountDB = (g.books P b).accountDB := by
    refine Finmap.ext_lookup fun key => ?_
    rw [h.covers.accountDB key, hmoved, Finmap.lookup_empty, Option.none_or,
      Ledger.visible_of_notMem (by simp [hunstored])]
  refine ⟨?_, ⟨⟨hlisten, hlock, ?_⟩, ?_, ?_⟩, ?_⟩
  · rw [Wallet.books, hdb, h.covers.eventLog, h.covers.seedFile]
  · rw [hdb]
    exact h.covers.sound.texts
  · have hqueue := h.covers.queue
    rw [hqueued] at hqueue
    simpa using hqueue
  · rw [hdb, h.covers.seedFile]
    exact h.covers.sound.fresh
  · have hrequests := h.requests
    have hpending : ts.flatMap (fun x => x.2.pending x.1.request) = [] := by
      refine List.flatMap_eq_nil_iff.mpr fun x hx => ?_
      rw [hidle x hx]
      rfl
    rw [hpending, Ledger.requests, hqueued, hinflight] at hrequests
    refine List.Perm.trans ?_ hrequests
    rw [List.perm_iff_count]
    intro a
    simp only [List.count_append, List.count_nil, Option.toList_none]
    omega

theorem of_run {text : Status → String} {w : Wallet} {is : List Nat} (hw : w.Quiet)
    (hown : Meets Threads.step ReadsOwn (Threads.init (.int32 text) w rs) is)
    (hrun : run Threads.step (Threads.init (.int32 text) w rs) is = some s) :
    ∃ g ts, Tracked (.int32 text) w.books rs s g ts :=
  run_invariant (I := fun s => ∃ g ts, Tracked (.int32 text) w.books rs s g ts)
    (fun ⟨_, _, h⟩ hown hstep => h.step hown hstep) ⟨_, _, .init hw rs⟩ hown hrun

end Tracked

def Serial (P : Platform) (w : Wallet) (rs : List Request) (s : Threads) : Prop :=
  ∃ rs' : List Request, rs'.Perm rs ∧ s.shared.accountDB = (serveAll P w rs').accountDB ∧
    s.shared.eventLog = (serveAll P w rs').eventLog

theorem Ledger.Sound.serveAll {P : Platform} {b : Books} {g : Ledger} (hg : g.Sound P b)
    {rest : List Request} (hrest : ∀ r ∈ rest, r.effective P = false) :
    b.serveAll P (g.absent ++ (g.creates ++ g.decided) ++ rest) = g.books P b := by
  have habsent : b.serveAll P g.absent = b := by
    refine Books.serveAll_of_fixed fun r hr => ?_
    obtain ⟨c, hc, hmissing⟩ := hg.absent r hr
    simp only [Books.serve, hc]
    exact Books.transfer_of_absent hmissing
  rw [Books.serveAll_append, Books.serveAll_append, habsent]
  refine Books.serveAll_of_fixed fun r hr => ?_
  have hr := hrest r hr
  simp only [Request.effective, Bool.or_eq_false_iff, Option.isSome_eq_false_iff,
    Option.isNone_iff_eq_none] at hr
  simp [Books.serve, hr]

/-- Whatever the interleaving, if every test a transfer makes of
`service._status` sees the status of its own last call, the outcome is that of
a serial execution. -/
theorem threads_serializable (text : Status → String) {w : Wallet} (hw : w.Quiet) {rs : List Request}
    {is : List Nat} {s : Threads}
    (hown : Meets Threads.step ReadsOwn (Threads.init (.int32 text) w rs) is)
    (hrun : run Threads.step (Threads.init (.int32 text) w rs) is = some s) (hfin : s.finished) :
    Serial (.int32 text) w rs s := by
  obtain ⟨g, ts, htracked⟩ := Tracked.of_run hw hown hrun
  obtain ⟨hbooks, -, hperm⟩ := htracked.settled hfin
  let rest := rs.filter (! ·.effective (.int32 text))
  have hrest : ∀ r ∈ rest, r.effective (.int32 text) = false := by simp [rest]
  have hserial : (serveAll (.int32 text) w (g.absent ++ (g.creates ++ g.decided) ++ rest)).books =
      s.shared.books := by
    rw [books_serveAll hw.ready, htracked.covers.sound.serveAll hrest, hbooks]
  refine ⟨g.absent ++ (g.creates ++ g.decided) ++ rest, ?_, congrArg Books.accountDB hserial.symm,
    congrArg Books.eventLog hserial.symm⟩
  exact (hperm.append_right rest).trans (List.filter_append_perm _ _)

def twoAccounts : Wallet :=
  serveAll (.int32 exampleText) .empty [.createAccount (some "10"), .createAccount (some "0")]

def mixedRequests : List Request :=
  [.balanceTransfer (some "700000001") (some "700000002") (some "3") "t1",
    .getBalance (some "700000001"), .createAccount (some "5")]

def mixedSchedule : List Nat :=
  List.replicate 16 0 ++ [2, 0, 1, 0, 2, 0, 1, 0, 2, 0, 1] ++ List.replicate 3 0

theorem threads_serializable_example :
    ∃ s, run Threads.step (Threads.init (.int32 exampleText) twoAccounts mixedRequests) mixedSchedule =
        some s ∧ s.finished ∧ Serial (.int32 exampleText) twoAccounts mixedRequests s := by
  have hrun : (run Threads.step (Threads.init (.int32 exampleText) twoAccounts mixedRequests)
      mixedSchedule).isSome = true := by decide +kernel
  have hfin : ∀ s ∈ run Threads.step (Threads.init (.int32 exampleText) twoAccounts mixedRequests)
      mixedSchedule, s.finished := by decide +kernel
  obtain ⟨s, hs⟩ := Option.isSome_iff_exists.mp hrun
  exact ⟨s, hs, hfin s hs, threads_serializable exampleText (Wallet.Quiet.empty.serveAll _)
    (by decide +kernel) hs (hfin s hs)⟩

def lookingRequests : List Request :=
  [.balanceTransfer (some "700000001") (some "700000002") (some "3") "t1",
    .getBalance (some "700000009")]

def lookingSchedule : List Nat := List.replicate 17 0 ++ [1] ++ List.replicate 4 0 ++ [1, 1]

theorem get_balance_cuts_transfer :
    twoAccounts.Quiet ∧ ∃ s, run Threads.step (Threads.init (.int32 exampleText) twoAccounts
        lookingRequests) lookingSchedule = some s ∧ s.finished ∧
      ¬ Serial (.int32 exampleText) twoAccounts lookingRequests s := by
  have hrun : (run Threads.step (Threads.init (.int32 exampleText) twoAccounts lookingRequests)
      lookingSchedule).isSome = true := by decide +kernel
  have hfin : ∀ s ∈ run Threads.step (Threads.init (.int32 exampleText) twoAccounts lookingRequests)
      lookingSchedule, s.finished := by decide +kernel
  have horders : ∀ s ∈ run Threads.step (Threads.init (.int32 exampleText) twoAccounts lookingRequests)
      lookingSchedule, ∀ rs ∈ lookingRequests.permutations',
        s.shared.accountDB ≠ (serveAll (.int32 exampleText) twoAccounts rs).accountDB := by
    decide +kernel
  obtain ⟨s, hs⟩ := Option.isSome_iff_exists.mp hrun
  refine ⟨Wallet.Quiet.empty.serveAll _, s, hs, hfin s hs, ?_⟩
  rintro ⟨rs, hperm, hdb, -⟩
  exact horders s hs rs (List.mem_permutations'.mpr hperm) hdb

theorem threads_quiet {text : Status → String} {w : Wallet} (hw : w.Quiet) {rs : List Request}
    {is : List Nat} {s : Threads}
    (hown : Meets Threads.step ReadsOwn (Threads.init (.int32 text) w rs) is)
    (hrun : run Threads.step (Threads.init (.int32 text) w rs) is = some s) (hfin : s.finished) :
    s.shared.Quiet := by
  obtain ⟨g, ts, htracked⟩ := Tracked.of_run hw hown hrun
  exact (htracked.settled hfin).2.1

end DigitalWallet
