import DigitalWallet.Laws.Ledger
import DigitalWallet.Laws.Paths
import DigitalWallet.Lib.Rely

/-! The transfer that holds `cv_m`, among handlers that hold no lock.  Provided
that each of its tests of `service._status` sees what its own last database call
stored, it does to the books what the abstract transfer does. -/

namespace DigitalWallet

open Lib

section Contract

variable (P : Platform) (b : Books)

structure Interferes (x : Wallet × Status) (g : Ledger) (x' : Wallet × Status) (g' : Ledger) : Prop where
  last : x'.2 = x.2
  state : x'.1.currentState = x.1.currentState
  command : x'.1.commandToProcess = x.1.commandToProcess
  lock : x'.1.cvM = x.1.cvM
  inflight : g'.inflight = g.inflight
  moved : g'.moved = g.moved
  grows : g.Grows P b g'

structure Advances (g g' : Ledger) : Prop where
  queued : g'.queued = g.queued
  unstored : g'.unstored = g.unstored
  requests : g'.requests.Perm g.requests

/-- The second component of the state is the status that the holder's own last
database call stored. -/
def holder : Contract Op Op.Ret (Wallet × Status) Ledger where
  step o x r x' := (o = .ok → x.1.status.ok = x.2.ok) ∧ perform .succeed o x.1 = some (r, x'.1) ∧
    x'.2 = if o.callsDB then x'.1.status else x.2
  owns x := x.1.cvM = true
  invariant x g := Covers P b x.1 g
  rely := Interferes P b
  guarantee := Advances

end Contract

theorem Interferes.trans {P : Platform} {b : Books} {x x' x'' : Wallet × Status} {g g' g'' : Ledger}
    (h : Interferes P b x g x' g') (h' : Interferes P b x' g' x'' g'') : Interferes P b x g x'' g'' where
  last := h'.last.trans h.last
  state := h'.state.trans h.state
  command := h'.command.trans h.command
  lock := h'.lock.trans h.lock
  inflight := h'.inflight.trans h.inflight
  moved := h'.moved.trans h.moved
  grows := h.grows.trans h'.grows

theorem Interferes.refl {P : Platform} {b : Books} (x : Wallet × Status) (g : Ledger) :
    Interferes P b x g x g := ⟨rfl, rfl, rfl, rfl, rfl, rfl, .refl g⟩

theorem Advances.refl (g : Ledger) : Advances g g := ⟨rfl, rfl, .refl _⟩

structure Point where
  state : StateName
  command : Command
  inflight : Option Request
  moved : AccountDB
  known : List (String × String)
  last : Bool

structure Point.At (P : Platform) (b : Books) (p : Point) (x : Wallet × Status) (g : Ledger) :
    Prop where
  lock : x.1.cvM = true
  state : x.1.currentState = p.state
  command : x.1.commandToProcess = p.command
  inflight : g.inflight = p.inflight
  moved : g.moved = p.moved
  known : ∀ y ∈ p.known, g.visible P b y.1 = some y.2
  last : x.2.ok = p.last

namespace Point

variable {text : Status → String} {b : Books} {α : Type} {Q : α → Wallet × Status → Ledger → Prop}
  {p : Point} {x x' : Wallet × Status} {g g' : Ledger}

theorem At.interferes {P : Platform} (h : p.At P b x g) (hrely : Interferes P b x g x' g') :
    p.At P b x' g' where
  lock := hrely.lock.trans h.lock
  state := hrely.state.trans h.state
  command := hrely.command.trans h.command
  inflight := hrely.inflight.trans h.inflight
  moved := hrely.moved.trans h.moved
  known y hy := hrely.grows _ _ (h.known y hy)
  last := by rw [hrely.last, h.last]

theorem At.safe {P : Platform} {o : Op} {k : o.Ret → Prog α} (h : p.At P b x g)
    (hstep : ∀ w last g r w', p.At P b (w, last) g → Covers P b w g →
      (o = .ok → w.status.ok = last.ok) → perform .succeed o w = some (r, w') →
      ∃ g', Covers P b w' g' ∧ Advances g g' ∧
        (holder P b).Safe Q (k r) (w', if o.callsDB then w'.status else last) g') :
    (holder P b).Safe Q (.op o k) x g := by
  refine ⟨h.lock, ?_⟩
  rintro ⟨w, last⟩ g' hrely hinv r ⟨w', last'⟩ ⟨hown, hperform, hlast⟩
  obtain rfl : last' = if o.callsDB then w'.status else last := hlast
  exact hstep w last g' r w' (h.interferes hrely) hinv hown hperform

theorem At.safe_commandToProcess {P : Platform} {k : Command → Prog α} (h : p.At P b x g)
    (hk : ∀ x g, p.At P b x g → (holder P b).Safe Q (k p.command) x g) :
    (holder P b).Safe Q (.op .commandToProcess k) x g := by
  refine h.safe fun w last g r w' h hinv _ hperform => ⟨g, ?_⟩
  cases hperform
  exact ⟨hinv, .refl g, h.command ▸ hk _ g h⟩

theorem At.safe_ok {P : Platform} {k : Bool → Prog α} (h : p.At P b x g)
    (hk : ∀ x g, p.At P b x g → (holder P b).Safe Q (k p.last) x g) :
    (holder P b).Safe Q (.op .ok k) x g := by
  refine h.safe fun w last g r w' h hinv hown hperform => ⟨g, ?_⟩
  cases hperform
  rw [hown rfl, h.last]
  exact ⟨hinv, .refl g, hk _ g h⟩

theorem At.safe_setState {P : Platform} {s : StateName} {k : Unit → Prog α} (h : p.At P b x g)
    (hk : ∀ x g, { p with state := s }.At P b x g → (holder P b).Safe Q (k ()) x g) :
    (holder P b).Safe Q (.op (.setState s) k) x g := by
  refine h.safe fun w last g r w' h hinv _ hperform => ⟨g, ?_⟩
  cases hperform
  refine ⟨⟨hinv.sound, hinv.accountDB, hinv.eventLog, hinv.seedFile, hinv.queue, ?_⟩, .refl g, ?_⟩
  · intro hfree
    cases h.lock.symm.trans hfree
  · exact hk _ g ⟨h.lock, rfl, h.command, h.inflight, h.moved, h.known, h.last⟩

theorem At.safe_get {P : Platform} {call : Call} {key out : String} {k : String → Prog α}
    (h : p.At P b x g) (hmoved : p.moved = ∅)
    (hfound : ∀ x g n, fits32 n = true →
      { p with known := (key, Cpp.toString n) :: p.known, last := true }.At P b x g →
      (holder P b).Safe Q (k (Cpp.toString n)) x g)
    (hmissing : ∀ x g, key ∉ b.accountDB → { p with last := false }.At P b x g →
      (holder P b).Safe Q (k out) x g) :
    (holder P b).Safe Q (.op (.get call key out) k) x g := by
  refine h.safe fun w last g r w' h hinv _ hperform => ⟨g, ?_⟩
  have hlookup := hinv.accountDB key
  rw [h.moved, hmoved, Finmap.lookup_empty, Option.none_or] at hlookup
  cases hvisible : g.visible P b key with
  | some value =>
    obtain ⟨n, hfits, rfl⟩ := hinv.sound.texts _ _ (Ledger.visible_eq_some.mp hvisible).2
    simp [perform, AccountDB.get, Outcomes.succeed, hlookup, hvisible] at hperform
    obtain ⟨rfl, rfl⟩ := hperform
    refine ⟨hinv.records, .refl g, hfound _ g n hfits ⟨h.lock, h.state, h.command, h.inflight, h.moved, ?_, rfl⟩⟩
    intro y hy
    rcases List.mem_cons.mp hy with rfl | hy
    · exact hvisible
    · exact h.known y hy
  | none =>
    simp [perform, AccountDB.get, Outcomes.succeed, hlookup, hvisible] at hperform
    obtain ⟨rfl, rfl⟩ := hperform
    exact ⟨hinv.records, .refl g, hmissing _ g (hinv.sound.absent_of_hidden hvisible)
        ⟨h.lock, h.state, h.command, h.inflight, h.moved, h.known, rfl⟩⟩

theorem At.safe_put {P : Platform} {call : Call} {key balance value : String} {k : Unit → Prog α}
    (h : p.At P b x g) (hknown : (key, balance) ∈ p.known)
    (hk : ∀ x g, { p with moved := p.moved.insert key value, last := true }.At P b x g →
      (holder P b).Safe Q (k ()) x g) :
    (holder P b).Safe Q (.op (.put call key value) k) x g := by
  refine h.safe fun w last g r w' h hinv _ hperform => ⟨g.write key value, ?_⟩
  cases hperform
  refine ⟨hinv.write h.lock (h.known _ hknown), ⟨rfl, rfl, .refl _⟩, ?_⟩
  refine hk _ _ ⟨h.lock, h.state, h.command, h.inflight, ?_, h.known, rfl⟩
  rw [Ledger.write, h.moved]

section Decision

variable {P : Platform} {r : Request} {c : Command} (h : p.At P b x g) (hr : p.inflight = some r)
  (hc : r.command P = some c)

include h hr hc

theorem At.safe_reject {k : Unit → Prog α} (hmoved : p.moved = ∅)
    (habsent : c.account1 ∉ b.accountDB ∨ c.account2 ∉ b.accountDB)
    (hk : ∀ x g, { p with state := .listen, inflight := none }.At P b x g →
      (holder P b).Safe Q (k ()) x g) :
    (holder P b).Safe Q (.op (.setState .listen) k) x g := by
  refine h.safe fun w last g r' w' h hinv _ hperform => ⟨g.reject r, ?_⟩
  cases hperform
  refine ⟨hinv.reject (h.moved.trans hmoved) hc habsent,
    ⟨rfl, rfl, Ledger.requests_reject (h.inflight.trans hr)⟩, ?_⟩
  exact hk _ _ ⟨h.lock, rfl, h.command, rfl, hmoved.symm, h.known, h.last⟩

variable {sender receiver : String} (hsender : (c.account1, sender) ∈ p.known)
  (hreceiver : (c.account2, receiver) ∈ p.known)

include hsender hreceiver

theorem At.safe_decline {k : Unit → Prog α} (hmoved : p.moved = ∅)
    (hlow : value sender < value c.amount)
    (hk : ∀ x g, { p with state := .listen, inflight := none }.At P b x g →
      (holder P b).Safe Q (k ()) x g) :
    (holder P b).Safe Q (.op (.setState .listen) k) x g := by
  refine h.safe fun w last g r' w' h hinv _ hperform => ⟨g.decide r, ?_⟩
  cases hperform
  obtain ⟨hvisible, hcovers⟩ := hinv.decline hc (h.known _ hsender) (h.known _ hreceiver)
    (h.moved.trans hmoved) hlow
  refine ⟨hcovers _, ⟨rfl, rfl, Ledger.requests_decide (h.inflight.trans hr)⟩, ?_⟩
  refine hk _ _ ⟨h.lock, rfl, h.command, rfl, hmoved.symm, ?_, h.last⟩
  intro y hy
  rw [hvisible]
  exact h.known y hy

theorem At.safe_append {k : Bool → Prog α} (hle : value c.amount ≤ value sender)
    (hmoved : p.moved = ((∅ : AccountDB).insert c.account1
      (Cpp.toString ((value sender - value c.amount).bmod (2 ^ 32)))).insert c.account2
        (Cpp.toString ((value receiver + value c.amount).bmod (2 ^ 32))))
    (hk : ∀ x g, { p with inflight := none, moved := ∅, known := [] }.At P b x g →
      (holder P b).Safe Q (k true) x g) :
    (holder P b).Safe Q (.op (.append c.eventA c.eventB) k) x g := by
  refine h.safe fun w last g r' w' h hinv _ hperform => ⟨g.decide r, ?_⟩
  cases hperform
  refine ⟨hinv.settle hc (h.known _ hsender) (h.known _ hreceiver) h.lock hle (h.moved.trans hmoved),
    ⟨rfl, rfl, Ledger.requests_decide (h.inflight.trans hr)⟩, ?_⟩
  exact hk _ _ ⟨h.lock, h.state, h.command, rfl, rfl, by simp, h.last⟩

end Decision

def Over (P : Platform) (b : Books) (x : Wallet × Status) (g : Ledger) : Prop :=
  ∃ p : Point, p.At P b x g ∧ p.state = .listen ∧ p.inflight = none ∧ p.moved = ∅

theorem At.safe_status {P : Platform} {k : Status → Prog α} (h : p.At P b x g)
    (hk : ∀ x g s, p.At P b x g → (holder P b).Safe Q (k s) x g) :
    (holder P b).Safe Q (.op .status k) x g := by
  refine h.safe fun w last g r w' h hinv _ hperform => ⟨g, ?_⟩
  cases hperform
  exact ⟨hinv.records, .refl g, hk _ g _ ⟨h.lock, h.state, h.command, h.inflight, h.moved, h.known, h.last⟩⟩

theorem Over.safe_unlock {P : Platform} (h : Over P b x g) :
    (holder P b).Safe (fun _ x _ => x.1.cvM = false) Prog.unlock x g := by
  obtain ⟨p, h, hstate, hinflight, hmoved⟩ := h
  refine h.safe fun w last g r w' h hinv _ hperform => ⟨g, ?_⟩
  cases hperform
  refine ⟨⟨hinv.sound, hinv.accountDB, hinv.eventLog, hinv.seedFile, hinv.queue, fun _ => ?_⟩,
    .refl g, rfl⟩
  exact ⟨h.state.trans hstate, h.inflight.trans hinflight, h.moved.trans hmoved⟩

section Process

variable {r : Request} {c : Command}

theorem At.safe_update {m k n : Int} (h : p.At (.int32 text) b x g) (hr : p.inflight = some r)
    (hc : r.command (.int32 text) = some c) (hmoved : p.moved = ∅)
    (hsender : (c.account1, Cpp.toString m) ∈ p.known)
    (hreceiver : (c.account2, Cpp.toString k) ∈ p.known) (hamount : c.amount = Cpp.toString n)
    (hle : n ≤ m) :
    (holder (.int32 text) b).Safe (fun _ => Over (.int32 text) b)
      (ServiceApply.update c.eventA c.eventB ((m - n).bmod (2 ^ 32)) ((k + n).bmod (2 ^ 32))) x g := by
  simp only [ServiceApply.update, Proc.bind_eq, Proc.op_bind, Proc.ret_bind]
  refine h.safe_put hsender fun x g h => ?_
  refine h.safe_ok fun x g h => ?_
  refine h.safe_put hreceiver fun x g h => ?_
  refine h.safe_ok fun x g h => ?_
  refine h.safe_append hr hc hsender hreceiver ?_ ?_ fun x g h => ?_
  · simpa [hamount] using hle
  · simp [hmoved, hamount]
  refine h.safe_setState fun x g h => ?_
  exact ⟨_, h, rfl, rfl, rfl⟩

theorem At.known_inj {P : Platform} (h : p.At P b x g) {key : String} {m n : Int}
    (hm : (key, Cpp.toString m) ∈ p.known) (hn : (key, Cpp.toString n) ∈ p.known) : m = n :=
  Cpp.toString_injective (Option.some.inj ((h.known _ hm).symm.trans (h.known _ hn)))

theorem stoi_int32 {n : Int} (h : fits32 n = true) :
    stoi (.int32 text) (Cpp.toString n) = .ret n := by
  apply stoi_of_ok
  simp [Platform.int32, h]

theorem At.safe_apply {m n : Int} (h : p.At (.int32 text) b x g) (hcommand : p.command = c)
    (hr : p.inflight = some r) (hc : r.command (.int32 text) = some c) (hmoved : p.moved = ∅)
    (hsender : (c.account1, Cpp.toString m) ∈ p.known) (hamount : c.amount = Cpp.toString n)
    (hfits : fits32 n = true) (hle : n ≤ m) :
    (holder (.int32 text) b).Safe (fun _ => Over (.int32 text) b)
      (ServiceApply.process (.int32 text)) x g := by
  simp only [ServiceApply.process, Proc.bind_eq, Proc.op_bind, Proc.ret_bind]
  refine h.safe_commandToProcess fun x g h => ?_
  rw [hcommand]
  refine h.safe_get hmoved (fun x g m' hm' h => ?_) fun x g habsent h => ?_
  · obtain rfl : m = m' := h.known_inj (List.mem_cons_of_mem _ hsender) List.mem_cons_self
    refine h.safe_ok fun x g h => ?_
    simp only [stoi_int32 hm', Proc.ret_bind, Bool.not_true, Bool.false_eq_true, if_false]
    refine h.safe_get hmoved (fun x g k hk h => ?_) fun x g habsent h => ?_
    · refine h.safe_ok fun x g h => ?_
      simp only [stoi_int32 hk, hamount, stoi_int32 hfits, Proc.ret_bind, Bool.not_true,
        Bool.false_eq_true, if_false]
      exact h.safe_update hr hc hmoved (by simp) (by simp) hamount hle
    · refine h.safe_ok fun x g h => ?_
      refine h.safe_reject hr hc hmoved (.inr habsent) fun x g h => ?_
      exact ⟨_, h, rfl, rfl, hmoved⟩
  · refine h.safe_ok fun x g h => ?_
    refine h.safe_reject hr hc hmoved (.inl habsent) fun x g h => ?_
    exact ⟨_, h, rfl, rfl, hmoved⟩

theorem At.safe_validate (h : p.At (.int32 text) b x g) (hcommand : p.command = c)
    (hr : p.inflight = some r) (hc : r.command (.int32 text) = some c) (hmoved : p.moved = ∅) :
    (holder (.int32 text) b).Safe (fun _ => Over (.int32 text) b)
      (ServiceValidate.process (.int32 text)) x g := by
  obtain ⟨n, -, hfits, hamount, haction⟩ := Request.command_accepted hc
  simp only [ServiceValidate.process, Proc.bind_eq, Proc.op_bind, Proc.ret_bind]
  refine h.safe_commandToProcess fun x g h => ?_
  rw [hcommand]
  refine h.safe_get hmoved (fun x g k hk h => ?_) fun x g habsent h => ?_
  · refine h.safe_ok fun x g h => ?_
    refine h.safe_get hmoved (fun x g m hm h => ?_) fun x g habsent h => ?_
    · refine h.safe_ok fun x g h => ?_
      simp only [stoi_int32 hm, hamount, stoi_int32 hfits, haction, Proc.ret_bind, Bool.not_true,
        Bool.false_eq_true, if_false, beq_self_eq_true, if_true]
      split
      · next hlow =>
        refine h.safe_decline hr hc List.mem_cons_self (List.mem_cons_of_mem _ List.mem_cons_self)
          hmoved (by simpa [hamount] using hlow) fun x g h => ?_
        exact ⟨_, h, rfl, rfl, hmoved⟩
      · next hlow =>
        refine h.safe_setState fun x g h => ?_
        exact h.safe_apply hcommand hr hc hmoved List.mem_cons_self hamount hfits (by omega)
    · refine h.safe_ok fun x g h => ?_
      refine h.safe_reject hr hc hmoved (.inl habsent) fun x g h => ?_
      exact ⟨_, h, rfl, rfl, hmoved⟩
  · refine h.safe_ok fun x g h => ?_
    refine h.safe_reject hr hc hmoved (.inr habsent) fun x g h => ?_
    exact ⟨_, h, rfl, rfl, hmoved⟩

end Process

end Point

theorem Point.At.safe_processing {text : Status → String} {b : Books} {p : Point}
    {x : Wallet × Status} {g : Ledger} {r : Request} {c : Command} (h : p.At (.int32 text) b x g)
    (hcommand : p.command = c) (hr : p.inflight = some r) (hc : r.command (.int32 text) = some c)
    (hmoved : p.moved = ∅) :
    (holder (.int32 text) b).Safe (fun _ x _ => x.1.cvM = false) (processing (.int32 text)) x g := by
  unfold processing
  simp only [Proc.bind_eq, Proc.op_bind, Proc.ret_bind]
  refine Contract.Safe.ensuring ?_
  refine h.safe_setState fun x g h => ?_
  refine Contract.Safe.bind ?_
  refine (h.safe_validate hcommand hr hc hmoved).mono fun _ x g hover => ?_
  obtain ⟨q, hq, hstate, hinflight, hmoved⟩ := hover
  refine hq.safe_status fun x g s hq => ?_
  exact Point.Over.safe_unlock ⟨q, hq, hstate, hinflight, hmoved⟩

end DigitalWallet
