import DigitalWallet.Laws.Serve
import Mathlib.Data.Int.ModEq

namespace DigitalWallet

open Lib

def movement (key : String) (es : List Event) : Int :=
  ((es.filter fun e => e.account = key).map fun e => value e.amount).sum

@[simp] theorem loggedEvents_append (l l' : List LogEntry) :
    loggedEvents (l ++ l') = loggedEvents l ++ loggedEvents l' := List.filterMap_append ..

@[simp] theorem loggedEvents_entries (c : Command) : loggedEvents c.entries = [c.eventA, c.eventB] := rfl

theorem loggedEvents_flatMap (cs : List Command) :
    loggedEvents (cs.flatMap Command.entries) = cs.flatMap fun c => [c.eventA, c.eventB] := by
  induction cs with
  | nil => rfl
  | cons c cs ih =>
    rw [List.flatMap_cons, loggedEvents_append, ih, loggedEvents_entries, List.flatMap_cons]

@[simp] theorem movement_append (key : String) (es es' : List Event) :
    movement key (es ++ es') = movement key es + movement key es' := by
  simp [movement]

theorem movement_eq_zero {key : String} {es : List Event} (h : ∀ e ∈ es, e.account ≠ key) :
    movement key es = 0 := by
  have hnil : (es.filter fun e => e.account = key) = [] := by
    apply List.filter_eq_nil_iff.mpr
    simpa using h
  simp [movement, hnil]

theorem bmod_modEq (x : Int) : x.bmod (2 ^ 32) ≡ x [ZMOD 2 ^ 32] := Int.bmod_emod

section Movement

variable {c : Command} {n : Int}

theorem movement_sender (h0 : 0 ≤ n) (hn : c.amount = Cpp.toString n) (hne : c.account1 ≠ c.account2) :
    movement c.account1 [c.eventA, c.eventB] = -n := by
  simp [movement, Command.eventA, Command.eventB, hne.symm, value, hn, Cpp.strtol_minus_toString h0]

theorem movement_receiver (h0 : 0 ≤ n) (hn : c.amount = Cpp.toString n) (hne : c.account1 ≠ c.account2) :
    movement c.account2 [c.eventA, c.eventB] = n := by
  simp [movement, Command.eventA, Command.eventB, hne, value, hn, Cpp.strtol_plus_toString h0]

end Movement

structure Replays (w : Wallet) : Prop where
  listen : w.currentState = .listen
  log : w.eventLog = (enteredApply w.history).flatMap Command.entries
  known : ∀ c ∈ enteredApply w.history, c.account1 ∈ w.accountDB ∧ c.account2 ∈ w.accountDB
  balance : ∀ {key start}, (key, start) ∈ storedAccounts w.history →
    (∀ c ∈ enteredApply w.history, ¬ (c.account1 = key ∧ c.account2 = key)) →
    ∃ x, w.accountDB.lookup key = some (Cpp.toString x) ∧
      x ≡ value start + movement key (loggedEvents w.eventLog) [ZMOD 2 ^ 32]

namespace Replays

variable {text : Status → String} {w : Wallet}

theorem empty : Replays .empty where
  listen := rfl
  log := rfl
  known := by simp [Wallet.empty, Wallet.start, enteredApply]
  balance := by simp [Wallet.empty, Wallet.start, storedAccounts]

theorem movement_absent (h : Replays w) {key : String} (hkey : key ∉ w.accountDB) :
    movement key (loggedEvents w.eventLog) = 0 := by
  apply movement_eq_zero
  intro e he heq
  rw [h.log, loggedEvents_flatMap, List.mem_flatMap] at he
  obtain ⟨c, hc, hmem⟩ := he
  have hknown := h.known c hc
  simp only [List.mem_cons, List.not_mem_nil, or_false] at hmem
  rcases hmem with rfl | rfl
  · exact hkey (heq ▸ hknown.1)
  · exact hkey (heq ▸ hknown.2)

theorem create (h : Replays w) {id : String} {n : Int} {f : SeedFile} (hid : id ∉ w.accountDB) 
    (hmem : ∀ key, key ∈ w.accountDB ↔ ∃ start, (key, start) ∈ storedAccounts w.history) :
    Replays { w with
      accountDB := w.accountDB.insert id (Cpp.toString n)
      seedFile := f
      status := .OK
      history := w.history ++ [.generated id, .wrote .createAccount id (Cpp.toString n)] } := by
  have happly : enteredApply (w.history ++ [.generated id, .wrote .createAccount id (Cpp.toString n)]) =
      enteredApply w.history := by simp [enteredApply]
  constructor
  · exact h.listen
  · simpa only [happly] using h.log
  · simp only [happly, Finmap.mem_insert]
    intro c hc
    exact ⟨.inr (h.known c hc).1, .inr (h.known c hc).2⟩
  · intro key start hstored hself
    simp only [happly] at hself
    simp only [storedAccounts_append, List.mem_append] at hstored
    rcases hstored with hold | hnew
    · obtain ⟨x, hx, hmod⟩ := h.balance hold hself
      have hne : key ≠ id := by
        rintro rfl
        exact hid ((hmem key).mpr ⟨start, hold⟩)
      exact ⟨x, by rw [Finmap.lookup_insert_of_ne _ hne, hx], hmod⟩
    · simp [Action.stored?] at hnew
      obtain ⟨rfl, rfl⟩ := hnew
      refine ⟨n, Finmap.lookup_insert _, ?_⟩
      simp [h.movement_absent hid]

theorem apply (h : Replays w) {c : Command} {a b n : Int} (hf : Funded w.accountDB c a b n)
    (hpos : 0 < n) {w' : Wallet} (hlisten : w'.currentState = .listen)
    (hdb : w'.accountDB = (w.accountDB.insert c.account1 (Cpp.toString ((a - n).bmod (2 ^ 32)))).insert
      c.account2 (Cpp.toString ((b + n).bmod (2 ^ 32))))
    (hlog : w'.eventLog = w.eventLog ++ c.entries)
    (happly : enteredApply w'.history = enteredApply w.history ++ [c])
    (hstored : storedAccounts w'.history = storedAccounts w.history) : Replays w' := by
  constructor
  · exact hlisten
  · rw [hlog, happly, List.flatMap_append, h.log]; simp
  · simp only [hdb, Finmap.mem_insert]
    intro c' hc'
    rw [happly, List.mem_append] at hc'
    rcases hc' with hold | hnew
    · have := h.known c' hold
      exact ⟨.inr (.inr this.1), .inr (.inr this.2)⟩
    · rw [List.mem_singleton.mp hnew]
      exact ⟨.inr (.inl rfl), .inl rfl⟩
  · intro key start hmem hself
    rw [hstored] at hmem
    rw [happly] at hself
    have hnot := hself c (by simp)
    obtain ⟨x, hx, hmod⟩ := h.balance hmem fun c' hc' => hself c' (List.mem_append_left _ hc')
    rw [hlog, loggedEvents_append, movement_append, loggedEvents_entries, hdb, ← add_assoc]
    by_cases h1 : key = c.account1
    · subst h1
      have hne : c.account1 ≠ c.account2 := fun heq => hnot ⟨rfl, heq.symm⟩
      obtain rfl := Cpp.toString_injective (Option.some.inj (hx.symm.trans hf.sender))
      refine ⟨(x - n).bmod (2 ^ 32), ?_, ?_⟩
      · rw [Finmap.lookup_insert_of_ne _ hne, Finmap.lookup_insert]
      · rw [movement_sender hpos.le hf.amount hne]
        exact (bmod_modEq _).trans (hmod.add_right (-n))
    · by_cases h2 : key = c.account2
      · subst h2
        obtain rfl := Cpp.toString_injective (Option.some.inj (hx.symm.trans hf.receiver))
        refine ⟨(x + n).bmod (2 ^ 32), Finmap.lookup_insert _, ?_⟩
        rw [movement_receiver hpos.le hf.amount (Ne.symm h1)]
        exact (bmod_modEq _).trans (hmod.add_right n)
      · refine ⟨x, ?_, ?_⟩
        · rw [Finmap.lookup_insert_of_ne _ h2, Finmap.lookup_insert_of_ne _ h1, hx]
        · have hzero : movement key [c.eventA, c.eventB] = 0 :=
            movement_eq_zero (by simp [Ne.symm h1, Ne.symm h2])
          rw [hzero, add_zero]
          exact hmod

theorem same (h : Replays w) {w' : Wallet} (hlisten : w'.currentState = .listen)
    (hdb : w'.accountDB = w.accountDB) (hlog : w'.eventLog = w.eventLog)
    (happly : enteredApply w'.history = enteredApply w.history)
    (hstored : storedAccounts w'.history = storedAccounts w.history) : Replays w' where
  listen := hlisten
  log := by rw [hlog, happly, h.log]
  known := by rw [hdb, happly]; exact h.known
  balance := by rw [hdb, hlog, happly, hstored]; exact h.balance

theorem serve (h : Replays w) (hw : w.Reached (.int32 text)) (r : Request) :
    Replays (serve (.int32 text) w r) := by
  obtain ⟨ts, hs⟩ := hw.sane (Platform.int32_holds text)
  have htexts : Texts (fun n => fits32 n = true) w.accountDB := hs.texts
  have hserves := serves (P := .int32 text) hw.lock r
  generalize DigitalWallet.serve (.int32 text) w r = w' at hserves
  cases hserves with
  | idle => exact h
  | look _ hreads =>
    refine h.same h.listen rfl rfl ?_ ?_
    · simp [reads_apply hreads]
    · simp [(reads_accounts hreads).2]
  | create _ _ hk => exact h.create (hw.next_absent hk) fun key => hw.mem_iff
  | wait _ hlisten => exact absurd h.listen hlisten
  | @transfer c trail hc hlisten htrail =>
    have hstored : ∀ v : Verdict, storedAccounts (w.history ++ (.sent c :: .received c ::
        .entered .validate c :: trail ++ v.report c)) = storedAccounts w.history := by
      intro v
      rw [storedAccounts_append, htrail.serve_stored, List.append_nil]
    rcases verdict_succeed (fun _ h => h) htexts (Request.command_accepted hc) with
      ⟨s, hval, hv, -⟩ | ⟨a, b, n, hf, hpos, -, hval, hv⟩
    · rw [hv]
      refine h.same rfl rfl rfl ?_ (hstored _)
      rw [Verdict.wallet, enteredApply_append, htrail.serve_apply, if_neg (by simp [hval]),
        List.append_nil]
    · rw [hv]
      refine h.apply hf hpos rfl rfl rfl ?_ (hstored _)
      rw [Verdict.wallet, enteredApply_append, htrail.serve_apply, if_pos hval]

theorem serveAll (h : Replays w) (hw : w.Reached (.int32 text)) (rs : List Request) :
    Replays (serveAll (.int32 text) w rs) := by
  induction rs generalizing w with
  | nil => exact h
  | cons r rs ih => exact ih (h.serve hw r) (hw.serve r)

end Replays

/-- Handled one after another from the empty wallet, requests leave a log of one
pair of events for each command that reached APPLY, and the log accounts for
every balance modulo 2^32. -/
theorem log_replays (text : Status → String) (rs : List Request) :
    (serveAll (.int32 text) .empty rs).eventLog =
        (enteredApply (serveAll (.int32 text) .empty rs).history).flatMap (fun c =>
          [.header,
            .event ⟨c.action, c.account1, "-" ++ c.amount, c.txId⟩,
            .event ⟨c.action, c.account2, "+" ++ c.amount, c.txId⟩]) ∧
      (enteredApply (serveAll (.int32 text) .empty rs).history).Sublist
        (rs.filterMap (Request.command (.int32 text))) ∧
      (∀ before r after, rs = before ++ r :: after →
        enteredApply (serveAll (.int32 text) .empty (before ++ [r])).history =
          enteredApply (serveAll (.int32 text) .empty before).history →
        (serveAll (.int32 text) .empty (before ++ [r])).eventLog =
          (serveAll (.int32 text) .empty before).eventLog) ∧
      (∀ key, key ∈ (serveAll (.int32 text) .empty rs).accountDB ↔
        ∃ start, (key, start) ∈ storedAccounts (serveAll (.int32 text) .empty rs).history) ∧
      ∀ key start, (key, start) ∈ storedAccounts (serveAll (.int32 text) .empty rs).history →
        (∀ c ∈ enteredApply (serveAll (.int32 text) .empty rs).history,
          ¬ (c.account1 = key ∧ c.account2 = key)) →
        ∃ x, (serveAll (.int32 text) .empty rs).accountDB.lookup key = some (Cpp.toString x) ∧
          x ≡ value start + movement key (loggedEvents (serveAll (.int32 text) .empty rs).eventLog)
            [ZMOD 2 ^ 32] := by
  have hall : ∀ rs, Replays (serveAll (.int32 text) .empty rs) := Replays.empty.serveAll .empty
  refine ⟨(hall rs).log, ?_, ?_, fun key => (Wallet.Reached.empty.serveAll rs).mem_iff,
    fun key start => (hall rs).balance⟩
  · obtain ⟨cs, hcs, happly⟩ := Wallet.Reached.empty.entered (P := .int32 text) rs
    have hnone : enteredApply Wallet.empty.history = [] := rfl
    rw [happly, hnone]
    exact hcs
  · intro before r after _ hsame
    rw [(hall _).log, (hall before).log, hsame]

end DigitalWallet
