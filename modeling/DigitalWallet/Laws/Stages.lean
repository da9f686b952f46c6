import DigitalWallet.Laws.Holder

namespace DigitalWallet

open Lib

def Request.effective (P : Platform) (r : Request) : Bool :=
  (r.command P).isSome || (r.startAmount P).isSome

def Op.Neutral : Op → Prop
  | .get _ _ _ => True
  | .ok => True
  | .readLog => True
  | .abort => True
  | _ => False

def Neutral : Prog Response → Prop
  | .ret _ => True
  | .throw _ => True
  | .op o k => o.Neutral ∧ ∀ r, Neutral (k r)

inductive Stage
  | unsent | waiting | entering | receiving | holding
  | drawing | storing (id text : String)
  | idle

namespace Stage

def pending (r : Request) : Stage → List Request
  | .unsent => [r]
  | .drawing => [r]
  | _ => []

def unstored : Stage → List (String × String)
  | .storing id text => [(id, text)]
  | _ => []

def queued : Stage → Bool
  | .waiting => true
  | .entering => true
  | .receiving => true
  | _ => false

def holds : Stage → Bool
  | .entering => true
  | .receiving => true
  | .holding => true
  | _ => false

def initial (P : Platform) (r : Request) : Stage :=
  if (r.command P).isSome then .unsent else if (r.startAmount P).isSome then .drawing else .idle

def At (P : Platform) (b : Books) (w : Wallet) (g : Ledger) (t : Thread) : Stage → Prop
  | .unsent => ∃ c, t.request.command P = some c ∧ t.prog = .op (.send c) fun _ => toggleAndReport P
  | .waiting => (t.request.command P).isSome ∧ t.prog = toggleAndReport P
  | .entering => (t.request.command P).isSome ∧ t.prog = DigitalWallet.entering P ∧
      w.currentState = .listen ∧ g.inflight = none ∧ g.moved = ∅
  | .receiving => (t.request.command P).isSome ∧ (t.prog = .op .receive fun _ => processing P) ∧
      w.currentState = .listen ∧ g.inflight = none ∧ g.moved = ∅
  | .holding => (t.request.command P).isSome ∧
      (holder P b).Safe (fun _ x _ => x.1.cvM = false) t.prog (w, t.last) g
  | .drawing => ∃ startAmount, t.request = .createAccount startAmount ∧
      (∃ n, checkStartAmount P startAmount = .ok n) ∧ t.prog = createAccount P startAmount
  | .storing id text => ∃ n, text = Cpp.toString n ∧ t.prog = storeAccount id n
  | .idle => Neutral t.prog

end Stage

section Frame

variable {P : Platform} {b : Books} {w w' : Wallet} {g g' : Ledger} {t : Thread} {σ : Stage}

theorem Stage.At.interferes (h : σ.At P b w g t)
    (hrely : ∀ last, Interferes P b (w, last) g (w', last) g') : σ.At P b w' g' t := by
  have hlast := hrely t.last
  cases σ with
  | entering =>
    obtain ⟨hr, hprog, hs, hi, hm⟩ := h
    exact ⟨hr, hprog, hlast.state.trans hs, hlast.inflight.trans hi, hlast.moved.trans hm⟩
  | receiving =>
    obtain ⟨hr, hprog, hs, hi, hm⟩ := h
    exact ⟨hr, hprog, hlast.state.trans hs, hlast.inflight.trans hi, hlast.moved.trans hm⟩
  | holding =>
    obtain ⟨hr, hsafe⟩ := h
    refine ⟨hr, ?_⟩
    cases hprog : t.prog with
    | ret a => rw [hprog] at hsafe; exact hlast.lock.trans hsafe
    | throw e => rw [hprog] at hsafe; exact hsafe
    | op o k =>
      rw [hprog] at hsafe
      exact hsafe.rely Interferes.trans hlast (hlast.lock.trans hsafe.1)
  | _ => exact h

theorem Stage.At.of_not_holds (h : σ.At P b w g t) (hσ : σ.holds = false) : σ.At P b w' g' t := by
  cases σ with
  | entering => cases hσ
  | receiving => cases hσ
  | holding => cases hσ
  | _ => exact h

end Frame

/-- One operation of a handler, with what it does to the ledger. -/
structure Goes (P : Platform) (b : Books) (t : Thread) (σ : Stage) (w : Wallet) (g : Ledger)
    (t' : Thread) (σ' : Stage) (w' : Wallet) (g' : Ledger) : Prop where
  covers : Covers P b w' g'
  stage : σ'.At P b w' g' t'
  frame : (∀ last, Interferes P b (w, last) g (w', last) g') ∨ σ.holds = w.cvM
  unstored : (g'.unstored ++ σ.unstored).Perm (g.unstored ++ σ'.unstored)
  queued : g'.queued.length + σ.queued.toNat = g.queued.length + σ'.queued.toNat
  lock : σ'.holds.toNat + w.cvM.toNat = σ.holds.toNat + w'.cvM.toNat
  requests : (σ'.pending t.request ++ g'.requests).Perm (σ.pending t.request ++ g.requests)

theorem Thread.advance_cases {t t' : Thread} {w w' : Wallet} (h : t.advance w = some (t', w')) :
    ∃ o k r, t.prog = .op o k ∧ perform .succeed o w = some (r, w') ∧
      t' = ⟨t.request, k r, if o.callsDB then w'.status else t.last⟩ :=
  Thread.operate_cases h

theorem Thread.advance_request {t t' : Thread} {w w' : Wallet} (h : t.advance w = some (t', w')) :
    t'.request = t.request := by
  obtain ⟨o, k, r, -, -, rfl⟩ := Thread.advance_cases h
  rfl

section Advance

variable {P : Platform} {text : Status → String} {b : Books} {w w' : Wallet} {g : Ledger}
  {t t' : Thread}

theorem Goes.of_unsent (hw : Covers P b w g) (h : Stage.unsent.At P b w g t)
    (hadv : t.advance w = some (t', w')) : ∃ σ' g', Goes P b t .unsent w g t' σ' w' g' := by
  obtain ⟨c, hc, hprog⟩ := h
  obtain ⟨o, k, r, hprog', hperform, rfl⟩ := Thread.advance_cases hadv
  cases hprog.symm.trans hprog'
  cases hperform
  refine ⟨.waiting, { g with queued := g.queued ++ [t.request] }, hw.send hc, ?_, .inl fun last => ?_,
    .refl _, ?_, rfl, ?_⟩
  · exact ⟨by simp [hc], rfl⟩
  · exact ⟨rfl, rfl, rfl, rfl, rfl, rfl, .refl g⟩
  · simp [Stage.queued]
  · rw [List.perm_iff_count]
    intro a
    simp only [Stage.pending, Ledger.requests, List.count_append, List.count_nil]
    omega

theorem Goes.of_waiting (hw : Covers P b w g) (h : Stage.waiting.At P b w g t)
    (hadv : t.advance w = some (t', w')) : ∃ σ' g', Goes P b t .waiting w g t' σ' w' g' := by
  obtain ⟨hr, hprog⟩ := h
  rw [toggleAndReport_eq] at hprog
  obtain ⟨o, k, r, hprog', hperform, rfl⟩ := Thread.advance_cases hadv
  cases hprog.symm.trans hprog'
  simp only [perform] at hperform
  split at hperform
  · next hfree =>
    cases hperform
    obtain ⟨-, hinflight, hmoved⟩ := hw.idle hfree.1
    refine ⟨.entering, g, ?_, ?_, .inr ?_, .refl _, rfl, ?_, .refl _⟩
    · exact ⟨hw.sound, hw.accountDB, hw.eventLog, hw.seedFile, hw.queue, fun hfree' => by cases hfree'⟩
    · exact ⟨hr, rfl, hfree.2, hinflight, hmoved⟩
    · simp [Stage.holds, hfree.1]
    · simp [Stage.holds, hfree.1]
  · cases hperform

theorem Goes.of_entering (hw : Covers P b w g) (hlock : w.cvM = true)
    (h : Stage.entering.At P b w g t) (hadv : t.advance w = some (t', w')) :
    ∃ σ' g', Goes P b t .entering w g t' σ' w' g' := by
  obtain ⟨hr, hprog, hs, hinflight, hmoved⟩ := h
  obtain ⟨k', hentering, hk'⟩ := entering_eq P
  obtain ⟨o, k, r, hprog', hperform, rfl⟩ := Thread.advance_cases hadv
  cases (hprog.trans hentering).symm.trans hprog'
  cases hperform
  refine ⟨.receiving, g, hw, ?_, .inr ?_, .refl _, rfl, rfl, .refl _⟩
  · refine ⟨hr, ?_, hs, hinflight, hmoved⟩
    rw [hs]
    exact hk'
  · simp [Stage.holds, hlock]

theorem Goes.of_receiving (hw : Covers (.int32 text) b w g) (hlock : w.cvM = true)
    (h : Stage.receiving.At (.int32 text) b w g t) (hadv : t.advance w = some (t', w')) :
    ∃ σ' g', Goes (.int32 text) b t .receiving w g t' σ' w' g' := by
  obtain ⟨hr, hprog, hs, hinflight, hmoved⟩ := h
  obtain ⟨o, k, r, hprog', hperform, rfl⟩ := Thread.advance_cases hadv
  cases hprog.symm.trans hprog'
  simp only [perform, Option.map_eq_some_iff] at hperform
  obtain ⟨⟨c, q⟩, hq, heq⟩ := hperform
  cases heq
  obtain ⟨queued, r, hqueued, hc, hcovers⟩ := hw.receive (MessageQueue.receive_eq_some.mp hq) hlock
  refine ⟨.holding, { g with queued := queued, inflight := some r }, hcovers, ?_, .inr ?_, .refl _, ?_,
    rfl, ?_⟩
  · refine ⟨hr, ?_⟩
    exact Point.At.safe_processing (p := ⟨w.currentState, c, some r, ∅, [], t.last.ok⟩)
      ⟨hlock, rfl, rfl, rfl, hmoved, by simp, rfl⟩ rfl rfl hc rfl
  · simp [Stage.holds, hlock]
  · simp [Stage.queued, hqueued]
  · rw [List.perm_iff_count]
    intro a
    simp only [Stage.pending, Ledger.requests, hqueued, hinflight, List.count_append, List.count_nil,
      Option.toList_some, Option.toList_none]
    omega

theorem Goes.of_holding (hw : Covers P b w g) (hlock : w.cvM = true)
    (h : Stage.holding.At P b w g t)
    (hown : ∀ k, t.prog = .op .ok k → w.status.ok = t.last.ok) (hadv : t.advance w = some (t', w')) :
    ∃ σ' g', Goes P b t .holding w g t' σ' w' g' := by
  obtain ⟨hr, hsafe⟩ := h
  obtain ⟨o, k, r, hprog, hperform, rfl⟩ := Thread.advance_cases hadv
  rw [hprog] at hsafe
  obtain ⟨g', hcovers, hadvances, hsafe'⟩ := hsafe.2 _ _ (.refl _ g) hw r
    (w', if o.callsDB then w'.status else t.last)
    ⟨fun ho => by subst ho; exact hown k hprog, hperform, rfl⟩
  have hunstored : (g'.unstored ++ []).Perm (g.unstored ++ []) := by
    rw [hadvances.unstored]
  have hqueued : g'.queued.length = g.queued.length := by
    rw [hadvances.queued]
  cases hl : w'.cvM with
  | true =>
    refine ⟨.holding, g', hcovers, ⟨hr, hsafe'⟩, .inr ?_, hunstored, by simpa using hqueued, ?_,
      hadvances.requests⟩
    · simp [Stage.holds, hlock]
    · simp [hlock, hl]
  | false =>
    refine ⟨.idle, g', hcovers, ?_, .inr ?_, hunstored, by simpa [Stage.queued] using hqueued, ?_,
      hadvances.requests⟩
    · obtain ⟨a, ha, -⟩ := hsafe'.returned (by simp [holder, hl])
      simp only [Stage.At, ha, Neutral]
    · simp [Stage.holds, hlock]
    · simp [Stage.holds, hlock, hl]

theorem Goes.of_drawing (hw : Covers (.int32 text) b w g) (h : Stage.drawing.At (.int32 text) b w g t)
    (hadv : t.advance w = some (t', w')) :
    ∃ σ' g', Goes (.int32 text) b t .drawing w g t' σ' w' g' := by
  obtain ⟨startAmount, hr, ⟨n, hn⟩, hprog⟩ := h
  obtain ⟨o, k, r, hprog', hperform, rfl⟩ := Thread.advance_cases hadv
  simp only [createAccount, hn, Proc.bind_eq, Proc.op_bind, Proc.ret_bind] at hprog
  cases hprog.symm.trans hprog'
  obtain ⟨m, -, hnumber, -⟩ := hw.sound.fresh
  rw [← hw.seedFile] at hnumber
  obtain ⟨k', -, -, hgen⟩ | ⟨hnone, -⟩ | ⟨-, hgen⟩ := genAccountID_cases w.seedFile
  · generalize accountID (k' + 1) = id, SeedFile.archive (some (k' + 1)) = f at hgen
    simp only [perform, Outcomes.succeed, hgen] at hperform
    cases hperform
    have hcommand : t.request.command (.int32 text) = none := by rw [hr]; rfl
    have hstart : t.request.startAmount (.int32 text) = some n := by
      simp [hr, Request.startAmount, hn, Except.toOption]
    have hfits : fits32 n = true := (checkStartAmount_ok hn).2
    have hgen' := hgen
    rw [hw.seedFile] at hgen'
    refine ⟨.storing id (Cpp.toString n), g.draw t.request id (Cpp.toString n),
      hw.draw hcommand hstart hfits hgen, ⟨n, rfl, rfl⟩, .inl fun last => ?_, ?_, rfl, rfl, ?_⟩
    · refine ⟨rfl, rfl, rfl, rfl, rfl, rfl, fun key value hkey => ?_⟩
      rw [hw.sound.visible_draw hcommand hstart hgen', hkey]
    · rw [List.perm_iff_count]
      intro a
      simp only [Stage.unstored, Ledger.draw, List.count_append, List.count_cons, List.count_nil]
      omega
    · rw [List.perm_iff_count]
      intro a
      simp only [Stage.pending, Ledger.requests, Ledger.draw, List.count_append, List.count_nil]
      omega
  · cases hnumber.symm.trans hnone
  · simp only [perform, Outcomes.succeed, hgen] at hperform
    cases hperform

theorem Goes.of_storing {id value : String} (hw : Covers P b w g) (hmem : (id, value) ∈ g.unstored)
    (h : (Stage.storing id value).At P b w g t) (hadv : t.advance w = some (t', w')) :
    ∃ σ' g', Goes P b t (.storing id value) w g t' σ' w' g' := by
  obtain ⟨n, rfl, hprog⟩ := h
  obtain ⟨o, k, r, hprog', hperform, rfl⟩ := Thread.advance_cases hadv
  cases hprog.symm.trans hprog'
  cases hperform
  refine ⟨.idle, g.store (id, Cpp.toString n), hw.store hmem, ?_, .inl fun last => ?_, ?_, rfl, rfl,
    .refl _⟩
  · refine ⟨trivial, fun ok => ?_⟩
    cases ok with
    | true => trivial
    | false => exact ⟨trivial, fun _ => trivial⟩
  · refine ⟨rfl, rfl, rfl, rfl, rfl, rfl, fun key value hkey => ?_⟩
    rw [hw.sound.visible_store hmem, if_neg]
    · exact hkey
    · rintro rfl
      exact (Ledger.visible_eq_some.mp hkey).1 (List.mem_map_of_mem hmem)
  · simp only [Stage.unstored, Ledger.store, List.append_nil]
    exact (List.perm_append_singleton _ _).trans (List.perm_cons_erase hmem).symm

theorem Op.Neutral.perform {o : Op} {r : o.Ret} (ho : o.Neutral) (hw : Covers P b w g)
    (h : DigitalWallet.perform .succeed o w = some (r, w')) :
    Covers P b w' g ∧ w'.cvM = w.cvM ∧ ∀ last, Interferes P b (w, last) g (w', last) g := by
  cases o with
  | get call key out =>
    cases h
    exact ⟨hw.records, rfl, fun _ => ⟨rfl, rfl, rfl, rfl, rfl, rfl, .refl g⟩⟩
  | ok => cases h; exact ⟨hw, rfl, fun _ => .refl _ g⟩
  | readLog => cases h; exact ⟨hw, rfl, fun _ => .refl _ g⟩
  | abort =>
    cases h
    exact ⟨⟨hw.sound, hw.accountDB, hw.eventLog, hw.seedFile, hw.queue, hw.idle⟩, rfl,
      fun _ => ⟨rfl, rfl, rfl, rfl, rfl, rfl, .refl g⟩⟩
  | _ => exact ho.elim

theorem Goes.of_idle (hw : Covers P b w g) (h : Stage.idle.At P b w g t)
    (hadv : t.advance w = some (t', w')) : ∃ σ' g', Goes P b t .idle w g t' σ' w' g' := by
  obtain ⟨o, k, r, hprog, hperform, rfl⟩ := Thread.advance_cases hadv
  simp only [Stage.At, hprog, DigitalWallet.Neutral] at h
  obtain ⟨hcovers, hlock, hrely⟩ := h.1.perform hw hperform
  exact ⟨.idle, g, hcovers, h.2 r, .inl hrely, .refl _, rfl, by rw [hlock], .refl _⟩

end Advance

end DigitalWallet
