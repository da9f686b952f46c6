import DigitalWallet.Laws.Serve
import DigitalWallet.Laws.Transfers
import DigitalWallet.Lib.Moved
import Mathlib.Algebra.BigOperators.Group.List.Basic
import Mathlib.Algebra.Ring.Int.Defs

namespace DigitalWallet

open Lib

def shift (d : Int) (t : String) : String := Cpp.toString ((value t + d).bmod (2 ^ 32))

def Command.effect (c : Command) (key : String) : Int :=
  if key = c.account2 then value c.amount else if key = c.account1 then -value c.amount else 0

theorem shift_shift (d d' : Int) (t : String) : shift d' (shift d t) = shift (d + d') t := by
  simp only [shift, value_toString, Int.bmod_add_bmod]
  rw [Int.add_assoc]

theorem bmod_of_fits32 {n : Int} (h : fits32 n = true) : n.bmod (2 ^ 32) = n := by
  have := fits32_iff.mp h
  apply Int.bmod_eq_of_le <;> omega

theorem shift_zero {db : AccountDB} (ht : Texts (fun n => fits32 n = true) db) (key t : String)
    (h : db.lookup key = some t) : shift 0 t = t := by
  obtain ⟨n, hn, rfl⟩ := ht key t h
  rw [shift, value_toString, Int.add_zero, bmod_of_fits32 hn]

section Apply

variable (text : Status → String) {db : AccountDB} {c : Command} {a b : Int}

theorem value_of_stoi {fits : Int → Bool} {t : String} {n : Int} (h : Cpp.stoi fits t = .ok n) :
    value t = n := by
  rw [value, (Cpp.stoi_ok_iff.mp h).1]
  rfl

theorem verdict_processed (ht : Texts (fun n => fits32 n = true) db) (c : Command) :
    (∃ v, validation (.int32 text) .succeed db c = some v ∧ verdict (.int32 text) .succeed db c = v ∧
      v.accountDB (.int32 text) c db = db ∧ ∀ log, v.eventLog c log = log) ∨
    ∃ a b, validation (.int32 text) .succeed db c = none ∧
      db.lookup c.account1 = some (Cpp.toString a) ∧ db.lookup c.account2 = some (Cpp.toString b) ∧
      verdict (.int32 text) .succeed db c = .applied a b (value c.amount) := by
  have hread : ∀ call key t, db.lookup key = some t → readAt .succeed db call key = .ok t :=
    fun call key t h => readAt_of_lookup rfl h
  unfold verdict
  cases hB : db.lookup c.account2 with
  | none =>
    refine .inl ⟨.refused .NotFound, ?_⟩
    simp [validation, readAt, Outcomes.succeed, hB]
  | some sB =>
    cases hA : db.lookup c.account1 with
    | none =>
      refine .inl ⟨.refused .NotFound, ?_⟩
      simp [validation, readAt, Outcomes.succeed, hB, hA]
    | some sA =>
      obtain ⟨a, ha, rfl⟩ := ht _ _ hA
      obtain ⟨b, hb, rfl⟩ := ht _ _ hB
      have hfits : (Platform.int32 text).fits = fits32 := rfl
      cases hn : Cpp.stoi fits32 c.amount with
      | error e =>
        refine .inl ⟨.failed .validate e, ?_⟩
        simp [validation, hread _ _ _ hB, hread _ _ _ hA, hfits, ha, hn]
      | ok n =>
        obtain rfl := value_of_stoi hn
        by_cases hgo : ¬ a < value c.amount ∧ c.action = "TRANSFER"
        · refine .inr ⟨a, b, ?_, rfl, rfl, ?_⟩
          · simp [validation, hread _ _ _ hB, hread _ _ _ hA, hfits, ha, hn, hgo.1, hgo.2]
          · simp [validation, application, hread _ _ _ hB, hread _ _ _ hA, hfits, ha, hb, hn, hgo.1,
              hgo.2]
            rfl
        · refine .inl ⟨.refused .OK, ?_⟩
          by_cases hlow : a < value c.amount
          · simp [validation, hread _ _ _ hB, hread _ _ _ hA, hfits, ha, hn, hlow]
          · have haction : ¬ c.action = "TRANSFER" := fun h => hgo ⟨hlow, h⟩
            simp [validation, hread _ _ _ hB, hread _ _ _ hA, hfits, ha, hn, hlow, haction]

theorem moved_applied (ht : Texts (fun n => fits32 n = true) db)
    (ha : db.lookup c.account1 = some (Cpp.toString a))
    (hb : db.lookup c.account2 = some (Cpp.toString b)) :
    Moved shift c.effect db
      ((Verdict.applied a b (value c.amount)).accountDB (.int32 text) c db) := by
  intro key
  simp only [Verdict.accountDB]
  by_cases h2 : key = c.account2
  · subst h2
    rw [Finmap.lookup_insert, hb]
    simp [shift, Command.effect, Platform.int32]
  · rw [Finmap.lookup_insert_of_ne _ h2]
    by_cases h1 : key = c.account1
    · rw [h1] at h2 ⊢
      rw [Finmap.lookup_insert, ha]
      simp [shift, Command.effect, h2, Platform.int32, Int.sub_eq_add_neg]
    · have heffect : c.effect key = 0 := by simp [Command.effect, h1, h2]
      rw [Finmap.lookup_insert_of_ne _ h1, heffect]
      exact Moved.refl (shift_zero ht) key

end Apply

def effects (ps : List Command) (key : String) : Int := (ps.map fun c => c.effect key).sum

theorem effects_append (ps ps' : List Command) (key : String) :
    effects (ps ++ ps') key = effects ps key + effects ps' key := by
  rw [effects, List.map_append, List.sum_append]
  rfl

theorem effects_perm {ps ps' : List Command} (h : ps.Perm ps') : effects ps = effects ps' := by
  funext key
  exact (h.map fun c => c.effect key).sum_eq

structure Applied (w : Wallet) (ps : List Command) (w' : Wallet) : Prop where
  entered : enteredApply w'.history = enteredApply w.history ++ ps
  log : w'.eventLog = w.eventLog ++ ps.flatMap Command.entries
  moved : Moved shift (effects ps) w.accountDB w'.accountDB

theorem Applied.trans {w w' w'' : Wallet} {ps ps' : List Command} (h : Applied w ps w')
    (h' : Applied w' ps' w'') : Applied w (ps ++ ps') w'' where
  entered := by rw [h'.entered, h.entered, List.append_assoc]
  log := by rw [h'.log, h.log, List.flatMap_append, List.append_assoc]
  moved := by
    have hboth := h.moved.trans shift_shift h'.moved
    simpa only [← effects_append] using hboth

section Processed

variable (text : Status → String) {w : Wallet}

theorem applied_nil (ht : Texts (fun n => fits32 n = true) w.accountDB) {w' : Wallet}
    (hentered : enteredApply w'.history = enteredApply w.history) (hlog : w'.eventLog = w.eventLog)
    (hdb : w'.accountDB = w.accountDB) : Applied w [] w' where
  entered := by rw [hentered, List.append_nil]
  log := by rw [hlog, List.flatMap_nil, List.append_nil]
  moved := by rw [hdb]; exact Moved.refl (shift_zero ht)

theorem applied_processed (ht : Texts (fun n => fits32 n = true) w.accountDB) (c : Command) :
    ∃ ps, Applied w ps (Service.processed (.int32 text) w c) ∧
      Texts (fun n => fits32 n = true) (Service.processed (.int32 text) w c).accountDB := by
  have hsend : Service.processed (.int32 text) w c = ((Service.toggle (.int32 text)).run .succeed
    { w with commandQueue := w.commandQueue.send c, history := w.history ++ [.sent c] }).2 := rfl
  rw [hsend]
  by_cases hl : w.currentState = .listen
  · obtain ⟨trail, htrail, hrun⟩ := toggle_run (P := .int32 text) (o := .succeed) (c := c)
      (q := w.commandQueue)
      (w := { w with commandQueue := w.commandQueue.send c, history := w.history ++ [.sent c] }) hl rfl
    have happly : enteredApply (w.history ++ [.sent c] ++ .received c :: .entered .validate c :: trail) =
        enteredApply w.history ++ if validation (.int32 text) .succeed w.accountDB c = none
          then [c] else [] := by
      rw [List.append_assoc, enteredApply_append, ← htrail.apply]
      rfl
    have htexts := ht.verdict (c := c) (Platform.int32_holds text)
      (verdict (.int32 text) .succeed w.accountDB c)
    rw [hrun]
    rcases verdict_processed text ht c with
      ⟨v, hv, hverdict, hdb, hlog⟩ | ⟨a, b, hv, ha, hb, hverdict⟩
    · refine ⟨[], applied_nil ht ?_ ?_ ?_, htexts⟩
      · exact happly.trans (by simp [hv])
      · rw [hverdict]; exact hlog _
      · rw [hverdict]; exact hdb
    · refine ⟨[c], ⟨?_, ?_, ?_⟩, htexts⟩
      · exact happly.trans (by simp [hv])
      · rw [hverdict]; simp [Verdict.wallet, Command.entries]
      · have hone : effects [c] = c.effect := by
          funext key
          simp [effects]
        rw [hverdict, hone]
        exact moved_applied text ht ha hb
  · have hidle := toggle_of_not_listen (P := .int32 text) (o := .succeed) (w := { w with
      commandQueue := w.commandQueue.send c, history := w.history ++ [.sent c] }) hl
    rw [hidle]
    exact ⟨[], applied_nil ht (by simp [enteredApply]) rfl rfl, ht⟩

theorem applied_foldl (ht : Texts (fun n => fits32 n = true) w.accountDB) (cs : List Command) :
    ∃ ps, Applied w ps (cs.foldl (Service.processed (.int32 text)) w) := by
  induction cs generalizing w with
  | nil => exact ⟨[], applied_nil ht rfl rfl rfl⟩
  | cons c cs ih =>
    obtain ⟨ps, hps, ht'⟩ := applied_processed text ht c
    obtain ⟨ps', hps'⟩ := ih ht'
    exact ⟨ps ++ ps', hps.trans hps'⟩

end Processed

/-- Two sequences of commands of which the same ones reach APPLY, in whatever
order, end in the same balances and log the same pairs of events. -/
theorem processed_confluent (text : Status → String) {s : System}
    (hr : Reachable (System.step (.int32 text)) (System.init .empty) s) {cs₁ cs₂ : List Command}
    {w₁ w₂ : Wallet} (hw₁ : cs₁.foldl (Service.processed (.int32 text)) s.shared = w₁)
    (hw₂ : cs₂.foldl (Service.processed (.int32 text)) s.shared = w₂)
    (h : (enteredApply w₁.history).Perm (enteredApply w₂.history)) :
    w₁.accountDB = w₂.accountDB ∧
      ∃ ps₁ ps₂ : List Command, ps₁.Perm ps₂ ∧ w₁.eventLog = s.shared.eventLog ++ ps₁.flatMap Command.entries ∧
        w₂.eventLog = s.shared.eventLog ++ ps₂.flatMap Command.entries := by
  have ht := (System.Sane.of_reachable (Platform.int32_holds text) hr).texts
  obtain ⟨ps₁, h₁⟩ := applied_foldl text ht cs₁
  obtain ⟨ps₂, h₂⟩ := applied_foldl text ht cs₂
  rw [hw₁] at h₁
  rw [hw₂] at h₂
  rw [h₁.entered, h₂.entered, List.perm_append_left_iff] at h
  refine ⟨?_, ps₁, ps₂, h, h₁.log, h₂.log⟩
  have hmoved := h₁.moved
  rw [effects_perm h] at hmoved
  exact hmoved.unique h₂.moved

def mixedCommands : List Command :=
  [⟨"tx-2", "700000001", "700000002", "10", "TRANSFER"⟩,
    ⟨"tx-3", "700000001", "700000002", "500", "TRANSFER"⟩,
    ⟨"tx-4", "700000002", "700000002", "7", "TRANSFER"⟩]

theorem processed_confluent_example :
    (mixedCommands.foldl (Service.processed (.int32 exampleText)) exampleState.shared).accountDB =
        (mixedCommands.reverse.foldl (Service.processed (.int32 exampleText))
          exampleState.shared).accountDB ∧
      ∃ ps₁ ps₂ : List Command, ps₁.Perm ps₂ ∧
        (mixedCommands.foldl (Service.processed (.int32 exampleText)) exampleState.shared).eventLog =
          exampleState.shared.eventLog ++ ps₁.flatMap Command.entries ∧
        (mixedCommands.reverse.foldl (Service.processed (.int32 exampleText))
          exampleState.shared).eventLog = exampleState.shared.eventLog ++ ps₂.flatMap Command.entries :=
  processed_confluent exampleText exampleState_reachable rfl rfl (by decide +kernel)

end DigitalWallet
