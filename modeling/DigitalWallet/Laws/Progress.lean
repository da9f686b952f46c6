import DigitalWallet.Laws.Seed
import DigitalWallet.Laws.Serializable

namespace DigitalWallet

open Lib

section Length

variable {P : Platform}

theorem processing_free : (processing P).All Op.Free := by
  have hV : P.Holds fun _ => True := ⟨fun _ => trivial, fun _ _ => trivial⟩
  exact (processing_keeps (i := .started) hV rfl rfl).all fun _ _ h => h.1

theorem toggleAndReport_alive : (toggleAndReport P).All (· ≠ .abort) := by
  have hV : P.Holds fun _ => True := ⟨fun _ => trivial, fun _ _ => trivial⟩
  exact (toggleAndReport_keeps (i := .started) hV rfl).all fun _ _ h => h.1.ne_abort

theorem Threads.step_advance {s s' : Threads} {i : Nat} (h : Threads.step s i = some s') :
    s.advance Thread.advance i = some s' := by
  simp only [Threads.step] at h
  split at h
  · cases h
  · exact h

end Length

def Thread.asserts (t : Thread) : Bool :=
  match t.request, t.prog with
  | .createAccount _, .op .ok _ => true
  | _, _ => false

def AssertsOK (s : Threads) (i : Nat) : Prop :=
  ∀ t ∈ s.threads[i]?, t.asserts = true → s.shared.status.ok = true

instance (s : Threads) (i : Nat) : Decidable (AssertsOK s i) :=
  inferInstanceAs (Decidable (∀ t ∈ s.threads[i]?, t.asserts = true → s.shared.status.ok = true))

/-- An `assert` has failed: the process is stopped, or its next step stops it. -/
def Threads.Fatal (s : Threads) : Prop :=
  s.shared.aborted = true ∨ ∃ t ∈ s.threads, ∃ k, t.prog = .op .abort k

def Thread.Alive (P : Platform) (t : Thread) : Prop :=
  match t.request with
  | .createAccount startAmount => t.prog = createAccount P startAmount ∨
      (∃ id n, t.prog = storeAccount id n) ∨
      (∃ k r k', t.prog = .op .ok k ∧ k true = .ret r ∧ k false = .op .abort k') ∨
      t.prog.finished = true
  | _ => t.prog.All (· ≠ .abort)

section Assert

variable {P : Platform} {t t' : Thread} {w w' : Wallet} {s s' : Threads}

theorem perform_succeed_aborted {op : Op} {r : op.Ret} (hop : op ≠ .abort)
    (h : perform .succeed op w = some (r, w')) : w'.aborted = w.aborted := by
  cases op with
  | abort => exact absurd rfl hop
  | genAccountID =>
    simp only [perform] at h
    split at h
    · cases h; rfl
    · cases h; rfl
    · next hgen =>
      obtain ⟨k, -, -, h'⟩ | ⟨-, h'⟩ | ⟨-, h'⟩ := genAccountID_cases w.seedFile <;>
        cases hgen.symm.trans h'
    · cases h
  | _ => exact perform_aborted (by trivial) h

theorem Thread.Alive.not_aborting (h : t.Alive P) : ∀ k, t.prog ≠ .op .abort k := by
  intro k hk
  unfold Thread.Alive at h
  split at h
  · rcases h with h | ⟨id, n, h⟩ | ⟨k', r, k'', h, -⟩ | h
    · rw [hk, createAccount] at h
      split at h <;> cases h
    · rw [hk] at h
      cases h
    · rw [hk] at h
      cases h
    · rw [hk] at h
      cases h
  · rw [hk] at h
    exact h.1 rfl

theorem Thread.Alive.advance (h : t.Alive P) (hadv : t.advance w = some (t', w')) :
    ((t.asserts = true → w.status.ok = true) ∧ t'.Alive P ∧ w'.aborted = w.aborted) ∨
      (t.asserts = true ∧ w.status.ok = false ∧ ∃ k, t'.prog = .op .abort k) := by
  have hnot := h.not_aborting
  obtain ⟨o, k, r, hprog, hperform, rfl⟩ := Thread.advance_cases hadv
  have haborted := perform_succeed_aborted (fun ho => by subst ho; exact hnot k hprog) hperform
  unfold Thread.Alive at h ⊢
  dsimp only
  cases hreq : t.request with
  | createAccount startAmount =>
    rw [hreq] at h
    dsimp only at h ⊢
    rcases h with h | ⟨id, n, h⟩ | ⟨k₀, r₀, k', h, htrue, hfalse⟩ | h
    · rw [createAccount] at h
      cases hcheck : checkStartAmount P startAmount with
      | error e =>
        rw [hcheck] at h
        cases h.symm.trans hprog
      | ok n =>
        rw [hcheck] at h
        cases h.symm.trans hprog
        refine .inl ⟨by simp [Thread.asserts, hreq, hprog], ?_, haborted⟩
        cases r with
        | error e => exact .inr (.inr (.inr rfl))
        | ok id => exact .inr (.inl ⟨id, n, rfl⟩)
    · cases h.symm.trans hprog
      exact .inl ⟨by simp [Thread.asserts, hreq, hprog],
        .inr (.inr (.inl ⟨_, _, _, rfl, rfl, rfl⟩)), haborted⟩
    · cases h.symm.trans hprog
      cases hperform
      cases hok : w.status.ok with
      | true => exact .inl ⟨fun _ => rfl, .inr (.inr (.inr (by rw [htrue]; rfl))), rfl⟩
      | false => exact .inr ⟨by simp [Thread.asserts, hreq, hprog], rfl, k', hfalse⟩
    · rw [hprog] at h
      cases h
  | _ =>
    rw [hreq] at h
    simp only [hprog] at h
    exact .inl ⟨by simp [Thread.asserts, hreq], h.2 r, haborted⟩

theorem Thread.Alive.start (w : Wallet) (r : Request) : (Thread.start P w r).Alive P := by
  cases r with
  | createAccount startAmount => exact .inl rfl
  | balanceTransfer fromAccount toAccount amount txId =>
    simp only [Thread.Alive, Thread.start, handler, balanceTransfer]
    split
    · trivial
    · exact ⟨by simp, fun _ => toggleAndReport_alive⟩
  | getBalance accountID =>
    cases accountID with
    | none => trivial
    | some key => exact ⟨by simp, fun _ => ⟨by simp, fun _ => ⟨by simp, fun _ => trivial⟩⟩⟩
  | events =>
    refine ⟨by simp, fun log => ?_⟩
    simp only [Proc.ret_bind]
    split <;> trivial

structure Threads.Alive (P : Platform) (s : Threads) : Prop where
  running : s.shared.aborted = false
  handlers : ∀ t ∈ s.threads, t.Alive P

theorem Threads.Alive.not_fatal (h : s.Alive P) : ¬ s.Fatal := by
  rintro (ha | ⟨t, ht, k, hk⟩)
  · cases h.running.symm.trans ha
  · exact (h.handlers t ht).not_aborting k hk

theorem Threads.Alive.step {i : Nat} (h : s.Alive P) (hstep : Threads.step s i = some s') :
    (AssertsOK s i ∧ s'.Alive P) ∨ (¬ AssertsOK s i ∧ s'.Fatal) := by
  obtain ⟨before, t, after, t', hi, ht, ht', hadv⟩ := Pool.advance_cases (Threads.step_advance hstep)
  rcases (h.handlers t (by simp [ht])).advance hadv with
    ⟨hown, halive, haborted⟩ | ⟨hasserts, hok, k, hk⟩
  · refine .inl ⟨?_, haborted.trans h.running, ?_⟩
    · intro u hu hasserts
      cases hi.symm.trans hu
      exact hown hasserts
    · rw [ht']
      exact forall_mem_replace (ht ▸ h.handlers) halive
  · refine .inr ⟨fun hall => ?_, .inr ⟨t', by simp [ht'], k, hk⟩⟩
    cases (hall t hi hasserts).symm.trans hok

theorem Threads.Fatal.step {i : Nat} (h : s.Fatal) (hstep : Threads.step s i = some s') :
    s'.Fatal := by
  rcases h with ha | ⟨u, hu, k, hk⟩
  · simp [Threads.step, ha] at hstep
  · obtain ⟨before, t, after, t', -, ht, ht', hadv⟩ := Pool.advance_cases (Threads.step_advance hstep)
    rw [ht] at hu
    rcases List.mem_append.mp hu with hu | hu
    · exact .inr ⟨u, by simp [ht', hu], k, hk⟩
    · rcases List.mem_cons.mp hu with rfl | hu
      · obtain ⟨o, k', r, hprog, hperform, -⟩ := Thread.advance_cases hadv
        cases hk.symm.trans hprog
        obtain ⟨-, hshared⟩ := Prod.mk.inj (Option.some.inj hperform)
        exact .inl (by rw [← hshared])
      · exact .inr ⟨u, by simp [ht', hu], k, hk⟩

theorem Threads.Alive.init (hw : w.aborted = false) (rs : List Request) :
    (Threads.init P w rs).Alive P where
  running := hw
  handlers t ht := by
    obtain ⟨r, -, rfl⟩ := List.mem_map.mp ht
    exact .start w r

theorem Threads.Alive.of_run {rs : List Request} {is : List Nat} (hw : w.aborted = false)
    (hassert : Meets Threads.step AssertsOK (Threads.init P w rs) is)
    (hrun : run Threads.step (Threads.init P w rs) is = some s) : s.Alive P := by
  refine run_invariant (C := AssertsOK) (fun hi hok hstep => ?_) (.init hw rs) hassert hrun
  rcases hi.step hstep with ⟨-, halive⟩ | ⟨hnot, -⟩
  · exact halive
  · exact absurd hok hnot

end Assert

theorem Threads.fatal_iff {P : Platform} {w : Wallet} (hw : w.aborted = false) {rs : List Request}
    {is : List Nat} {s : Threads} (hrun : run Threads.step (Threads.init P w rs) is = some s) :
    s.Fatal ↔ ¬ Meets Threads.step AssertsOK (Threads.init P w rs) is := by
  constructor
  · intro hfatal hassert
    exact (Threads.Alive.of_run hw hassert hrun).not_fatal hfatal
  · refine run_violation (C := AssertsOK) (I := Threads.Alive P) (fun hi hok hstep => ?_)
      (fun hi hnot hstep => ?_) Threads.Fatal.step (.init hw rs) hrun
    · rcases hi.step hstep with ⟨-, halive⟩ | ⟨hnot, -⟩
      · exact halive
      · exact absurd hok hnot
    · rcases hi.step hstep with ⟨hok, -⟩ | ⟨-, hfatal⟩
      · exact absurd hok hnot
      · exact hfatal

section Progress

variable {P : Platform} {text : Status → String} {b : Books} {rs : List Request} {s s' : Threads}
  {g g' : Ledger} {ts : List (Thread × Stage)} {t t' : Thread} {σ σ' : Stage} {w w' : Wallet}

theorem Covers.queue_length (h : Covers P b w g) :
    w.commandQueue.messages.length = g.queued.length := by
  have hlength := congrArg List.length h.queue
  simpa using hlength

theorem Goes.free (hgoes : Goes P b t σ w g t' σ' w' g') (hw : Covers P b w g)
    (hstage : σ.At P b w g t) (hfree : σ = .holding → t.prog.All Op.Free)
    (hadv : t.advance w = some (t', w')) (hσ' : σ' = .holding) : t'.prog.All Op.Free := by
  subst hσ'
  have hlock := hgoes.lock
  have hqueued := hgoes.queued
  have hlength := hw.queue_length
  have hlength' := hgoes.covers.queue_length
  obtain ⟨o, k, r, hprog, hperform, rfl⟩ := Thread.advance_cases hadv
  -- the lock and the length of the queue rule out every stage but `receiving` and `holding`
  cases σ with
  | unsent =>
    obtain ⟨c, -, hprog'⟩ := hstage
    cases hprog'.symm.trans hprog
    cases hperform
    simp [Stage.holds] at hlock
  | waiting =>
    obtain ⟨-, hprog'⟩ := hstage
    rw [toggleAndReport_eq] at hprog'
    cases hprog'.symm.trans hprog
    simp only [perform] at hperform
    split at hperform <;> cases hperform
    dsimp only at hlength'
    simp only [Stage.queued, Bool.toNat_true, Bool.toNat_false] at hqueued
    omega
  | entering =>
    obtain ⟨-, hprog', -⟩ := hstage
    obtain ⟨k', hentering, -⟩ := entering_eq P
    cases (hprog'.trans hentering).symm.trans hprog
    cases hperform
    simp only [Stage.queued, Bool.toNat_true, Bool.toNat_false] at hqueued
    omega
  | receiving =>
    obtain ⟨-, hprog', -⟩ := hstage
    cases hprog'.symm.trans hprog
    exact processing_free
  | holding =>
    have hall := hfree rfl
    rw [hprog] at hall
    exact hall.2 r
  | drawing =>
    obtain ⟨startAmount, -, ⟨n, hn⟩, hprog'⟩ := hstage
    simp only [createAccount, hn] at hprog'
    cases hprog'.symm.trans hprog
    simp only [perform] at hperform
    split at hperform <;> cases hperform <;> simp [Stage.holds] at hlock
  | storing id text =>
    obtain ⟨n, -, hprog'⟩ := hstage
    cases hprog'.symm.trans hprog
    cases hperform
    simp [Stage.holds] at hlock
  | idle =>
    simp only [Stage.At, hprog, Neutral] at hstage
    obtain ⟨-, hcvM, -⟩ := hstage.1.perform hw hperform
    simp [Stage.holds, hcvM] at hlock

def Tracks (P : Platform) (b : Books) (rs : List Request) (s : Threads) : Prop :=
  ∃ g ts, Tracked P b rs s g ts ∧ ∀ x ∈ ts, x.2 = .holding → x.1.prog.All Op.Free

theorem Tracks.step {i : Nat} (h : Tracks (.int32 text) b rs s) (hown : ReadsOwn s i)
    (hstep : Threads.step s i = some s') : Tracks (.int32 text) b rs s' := by
  obtain ⟨g, ts, h, hfree⟩ := h
  obtain ⟨before, t, after, t', hi, ht, ht', hadv⟩ := Pool.advance_cases (Threads.step_advance hstep)
  rw [h.threads] at ht
  obtain ⟨before, rest, rfl, rfl, hrest⟩ := List.map_eq_append_iff.mp ht
  obtain ⟨⟨t, σ⟩, after, rfl, rfl, rfl⟩ := List.map_eq_cons_iff.mp hrest
  obtain ⟨σ', g', hgoes⟩ := h.advance (hown _ hi) hadv
  have htracked := h.goes (Thread.advance_request hadv) hgoes
  rw [← ht'] at htracked
  refine ⟨g', before ++ (t', σ') :: after, htracked, forall_mem_replace hfree ?_⟩
  exact hgoes.free h.covers (h.stages (t, σ) (by simp)) (hfree (t, σ) (by simp)) hadv

theorem Tracks.of_run {is : List Nat} (hw : w.Quiet)
    (hown : Meets Threads.step ReadsOwn (Threads.init (.int32 text) w rs) is)
    (hrun : run Threads.step (Threads.init (.int32 text) w rs) is = some s) :
    Tracks (.int32 text) w.books rs s := by
  refine run_invariant (C := ReadsOwn) (fun hi hown hstep => hi.step hown hstep) ?_ hown hrun
  refine ⟨_, _, .init hw rs, ?_⟩
  intro x hx hholding
  obtain ⟨r, -, rfl⟩ := List.mem_map.mp hx
  simp only [Stage.initial] at hholding
  split at hholding
  · cases hholding
  · split at hholding <;> cases hholding

end Progress

end DigitalWallet
