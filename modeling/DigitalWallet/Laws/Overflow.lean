import DigitalWallet.Laws.Atomicity
import DigitalWallet.Laws.Books
import DigitalWallet.Lib.FinmapSum
import Mathlib.Algebra.Order.Group.Int

namespace DigitalWallet

open Lib FinmapSum

def Computes (P : Platform) (w : Wallet) (r : Request) (a b n : Int) : Prop :=
  ∃ new c sender receiver, (serve P w r).history = w.history ++ new ∧ .entered .apply c ∈ new ∧
    .got .readSender c.account1 sender ∈ new ∧ .got .readReceiver c.account2 receiver ∈ new ∧
    Cpp.stoi P.fits sender = .ok a ∧ Cpp.stoi P.fits receiver = .ok b ∧
    Cpp.stoi P.fits c.amount = .ok n

/-- The accounts with exact balances. -/
structure Accounts where
  balances : Finmap fun _ : String => Int := ∅
  seedFile : SeedFile := .absent

namespace Accounts

def transfer (e : Accounts) (c : Command) : Accounts :=
  match e.balances.lookup c.account1, e.balances.lookup c.account2 with
  | some sender, some receiver =>
    if value c.amount ≤ sender then
      { e with
        balances := (e.balances.insert c.account1 (sender - value c.amount)).insert c.account2
          (receiver + value c.amount) }
    else e
  | _, _ => e

def create (e : Accounts) (n : Int) : Accounts :=
  match genAccountID {} e.seedFile with
  | (.returned id, f) => { balances := e.balances.insert id n, seedFile := f }
  | _ => e

def serve (P : Platform) (e : Accounts) (r : Request) : Accounts :=
  match r.command P, r.startAmount P with
  | some c, _ => e.transfer c
  | none, some n => e.create n
  | none, none => e

def serveAll (P : Platform) (e : Accounts) (rs : List Request) : Accounts := rs.foldl (serve P) e

theorem serveAll_concat (P : Platform) (e : Accounts) (rs : List Request) (r : Request) :
    e.serveAll P (rs ++ [r]) = (e.serveAll P rs).serve P r := List.foldl_append ..

def Bounded (e : Accounts) : Prop := ∀ key b, e.balances.lookup key = some b → b ≤ 2 ^ 31 - 1

def Nonneg (e : Accounts) : Prop := ∀ key b, e.balances.lookup key = some b → 0 ≤ b

end Accounts

theorem serveAll_concat (P : Platform) (w : Wallet) (rs : List Request) (r : Request) :
    serveAll P w (rs ++ [r]) = serve P (serveAll P w rs) r := List.foldl_append ..

section Record

variable {P : Platform} {w : Wallet} {r : Request} {c : Command} {a b n : Int}

theorem serve_command (hl : w.cvM = false) (hs : w.currentState = .listen) (hc : r.command P = some c) :
    ∃ trail, Trail P .succeed w.accountDB c trail ∧
      (serve P w r).history = w.history ++ (.sent c :: .received c :: .entered .validate c :: trail ++
        (verdict P .succeed w.accountDB c).report c) := by
  have hserves := serves (P := P) hl r
  generalize serve P w r = w' at hserves
  cases hserves with
  | idle hnone => cases hnone.symm.trans hc
  | look hnone => cases hnone.symm.trans hc
  | create hr => rw [hr] at hc; cases hc
  | wait _ hlisten => exact absurd hs hlisten
  | @transfer c' trail hc' _ htrail =>
    cases hc.symm.trans hc'
    exact ⟨trail, htrail, rfl⟩

variable {text : Status → String}

theorem Wallet.Ready.fits (hw : w.Ready) {key : String}
    (h : w.accountDB.lookup key = some (Cpp.toString a)) : fits32 a = true := by
  obtain ⟨m, hm, heq⟩ := hw.texts _ _ h
  rwa [Cpp.toString_injective heq]

theorem mem_trail_of_got {trail : List Action} {v : Verdict} {call : Call} {key value : String}
    (h : .got call key value ∈ .sent c :: .received c :: .entered .validate c :: trail ++ v.report c) :
    .got call key value ∈ trail := by
  cases v <;> simpa [Verdict.report] using h

theorem serve_applies (hw : w.Ready) {new : List Action}
    (hnew : (serve (.int32 text) w r).history = w.history ++ new) (happly : .entered .apply c ∈ new) :
    r.command (.int32 text) = some c ∧ ∃ a b n, Funded w.accountDB c a b n := by
  have hmem : c ∈ enteredApply new := mem_enteredApply.mpr happly
  obtain ⟨cs, hcs, hentered⟩ := (serves (P := .int32 text) hw.lock r).entered
  rw [hnew, enteredApply_append, List.append_cancel_left_eq] at hentered
  have hc : r.command (.int32 text) = some c := Option.mem_toList.mp (hcs.subset (hentered ▸ hmem))
  obtain ⟨trail, htrail, hhistory⟩ := serve_command hw.lock hw.listen hc
  obtain rfl := List.append_cancel_left (hnew.symm.trans hhistory)
  rcases verdict_succeed (fun _ h => h) hw.texts (Request.command_accepted hc) with
    ⟨s, hv, -⟩ | ⟨a, b, n, hf, -⟩
  · rw [htrail.serve_apply, if_neg (by simp [hv])] at hmem
    cases hmem
  · exact ⟨hc, a, b, n, hf⟩

theorem validation_of_funded (hw : w.Ready) (hc : r.command (.int32 text) = some c)
    (hf : Funded w.accountDB c a b n) : validation (.int32 text) .succeed w.accountDB c = none := by
  rcases verdict_succeed (fun _ h => h) hw.texts (Request.command_accepted hc) with
    ⟨s, -, -, hno⟩ | ⟨_, _, _, -, -, -, hvalid, -⟩
  · exact absurd ⟨a, b, n, hf⟩ hno
  · exact hvalid

theorem computes_iff (hw : w.Ready) :
    Computes (.int32 text) w r a b n ↔
      ∃ c, r.command (.int32 text) = some c ∧ Funded w.accountDB c a b n := by
  have hfits : (Platform.int32 text).fits = fits32 := rfl
  constructor
  · rintro ⟨new, c, sender, receiver, hnew, hentered, hsender, hreceiver, ha, hb, hn⟩
    obtain ⟨hc, a', b', n', hf⟩ := serve_applies hw hnew hentered
    obtain ⟨trail, htrail, hhistory⟩ := serve_command hw.lock hw.listen hc
    obtain rfl := List.append_cancel_left (hnew.symm.trans hhistory)
    have hread : ∀ {call key value}, .got call key value ∈ Action.sent c :: .received c ::
        .entered .validate c :: trail ++ (verdict (.int32 text) .succeed w.accountDB c).report c →
        w.accountDB.lookup key = some value := fun h =>
      (htrail.within _ (mem_trail_of_got h)).1
    obtain rfl : sender = Cpp.toString a' := Option.some.inj ((hread hsender).symm.trans hf.sender)
    obtain rfl : receiver = Cpp.toString b' := Option.some.inj ((hread hreceiver).symm.trans hf.receiver)
    obtain ⟨m, -, hm, hamount, -⟩ := Request.command_accepted hc
    obtain rfl : a' = a := by simpa [hfits, hw.fits hf.sender] using ha
    obtain rfl : b' = b := by simpa [hfits, hw.fits hf.receiver] using hb
    rw [hfits] at hm
    obtain rfl : m = n := by simpa [hfits, hamount, hm] using hn
    exact ⟨c, hc, hf.sender, hf.receiver, hamount,
      Cpp.toString_injective (hamount.symm.trans hf.amount) ▸ hf.enough⟩
  · rintro ⟨c, hc, hf⟩
    obtain ⟨trail, htrail, hhistory⟩ := serve_command (P := .int32 text) hw.lock hw.listen hc
    have hv := verdict_of_funded hf (Request.command_accepted hc) (hw.fits hf.sender)
      (hw.fits hf.receiver) Outcomes.succeed_readsClear
    obtain ⟨sender, receiver, hsender, hreceiver, ha, hb, hn⟩ := htrail.numbers (a := a) (b := b) (n := n)
      (by rw [hv]; rfl)
    refine ⟨_, c, sender, receiver, hhistory, ?_, ?_, ?_, ha, hb, hn⟩
    · rw [← mem_enteredApply, htrail.serve_apply, if_pos (validation_of_funded hw hc hf)]
      exact List.mem_singleton_self c
    · simp [hsender]
    · simp [hreceiver]

end Record

structure Shows (e : Accounts) (b : Books) : Prop where
  balances : ∀ key, b.accountDB.lookup key = (e.balances.lookup key).map Cpp.toString
  seedFile : b.seedFile = e.seedFile

namespace Accounts

variable {P : Platform} {e : Accounts} {c : Command} {r : Request} {a b n : Int}

theorem transfer_cases (e : Accounts) (c : Command) :
    e.transfer c = e ∨ ∃ a b, e.balances.lookup c.account1 = some a ∧
      e.balances.lookup c.account2 = some b ∧ value c.amount ≤ a ∧
      (e.transfer c).balances = (e.balances.insert c.account1 (a - value c.amount)).insert c.account2
        (b + value c.amount) := by
  unfold transfer
  split
  · next sender receiver hs hr =>
    split
    · next hle => exact .inr ⟨sender, receiver, hs, hr, hle, rfl⟩
    · exact .inl rfl
  · exact .inl rfl

theorem create_cases (e : Accounts) (n : Int) :
    e.create n = e ∨ ∃ id f, genAccountID {} e.seedFile = (.returned id, f) ∧
      (e.create n) = ⟨e.balances.insert id n, f⟩ := by
  unfold create
  split
  · next id f hgen => exact .inr ⟨id, f, hgen, rfl⟩
  · exact .inl rfl

theorem serve_cases (P : Platform) (e : Accounts) (r : Request) :
    (e.serve P r).balances = e.balances ∨
    (∃ id n, r.startAmount P = some n ∧ (e.serve P r).balances = e.balances.insert id n) ∨
    ∃ c a b n, r.command P = some c ∧ e.balances.lookup c.account1 = some a ∧
      e.balances.lookup c.account2 = some b ∧ c.amount = Cpp.toString n ∧ 0 < n ∧ n ≤ a ∧
      (e.serve P r).balances =
        (e.balances.insert c.account1 (a - n)).insert c.account2 (b + n) := by
  unfold serve
  split
  · next _ c hc =>
    obtain ⟨n, hpos, -, hn, -⟩ := Request.command_accepted hc
    rcases transfer_cases e c with heq | ⟨a, b, ha, hb, hle, heq⟩
    · exact .inl (by rw [heq])
    · rw [hn, value_toString] at hle heq
      exact .inr (.inr ⟨c, a, b, n, hc, ha, hb, hn, hpos, hle, heq⟩)
  · next n _ hn =>
    rcases create_cases e n with heq | ⟨id, f, -, heq⟩
    · exact .inl (by rw [heq])
    · exact .inr (.inl ⟨id, n, hn, by rw [heq]⟩)
  · exact .inl rfl

theorem lookup_credited (hc : r.command P = some c) (ha : e.balances.lookup c.account1 = some a)
    (hb : e.balances.lookup c.account2 = some b) (hn : c.amount = Cpp.toString n) (hle : n ≤ a) :
    (e.serve P r).balances.lookup c.account2 = some (b + n) := by
  simp [serve, hc, transfer, ha, hb, hn, hle]

theorem forall_insert {m : Finmap fun _ : String => Int} {p : Int → Prop} {k : String}
    (h : ∀ key x, m.lookup key = some x → p x) (hn : p n) :
    ∀ key x, (m.insert k n).lookup key = some x → p x := by
  intro key x hx
  by_cases hk : key = k
  · subst hk
    rw [Finmap.lookup_insert] at hx
    cases hx
    exact hn
  · rw [Finmap.lookup_insert_of_ne _ hk] at hx
    exact h key x hx

theorem Nonneg.serve (h : e.Nonneg) (r : Request) : (e.serve P r).Nonneg := by
  unfold Nonneg
  rcases serve_cases P e r with heq | ⟨id, n, hn, heq⟩ | ⟨c, a, b, n, hc, ha, hb, hn, hpos, hle, heq⟩
  · rw [heq]; exact h
  · obtain ⟨startAmount, rfl, hcheck⟩ := Request.startAmount_eq_some hn
    rw [heq]
    exact forall_insert h (checkStartAmount_ok hcheck).1
  · have := h _ _ hb
    rw [heq]
    exact forall_insert (forall_insert h (by omega)) (by omega)

theorem Bounded.serve {text : Status → String} (h : e.Bounded)
    (hcredit : ∀ c a b n, r.command (.int32 text) = some c → e.balances.lookup c.account1 = some a →
      e.balances.lookup c.account2 = some b → c.amount = Cpp.toString n → n ≤ a →
      b + n ≤ 2 ^ 31 - 1) : (e.serve (.int32 text) r).Bounded := by
  unfold Bounded
  rcases serve_cases (.int32 text) e r with
    heq | ⟨id, n, hn, heq⟩ | ⟨c, a, b, n, hc, ha, hb, hn, hpos, hle, heq⟩
  · rw [heq]; exact h
  · obtain ⟨startAmount, rfl, hcheck⟩ := Request.startAmount_eq_some hn
    have := (fits32_iff.mp (checkStartAmount_ok hcheck).2).2
    rw [heq]
    exact forall_insert h (by omega)
  · have := h _ _ ha
    have := hcredit c a b n hc ha hb hn hle
    rw [heq]
    exact forall_insert (forall_insert h (by omega)) (by omega)

end Accounts

namespace Shows

variable {text : Status → String} {e : Accounts} {b : Books} {c : Command}

theorem insert (h : Shows e b) (key : String) (n : Int) (log : List LogEntry) (f : SeedFile) :
    Shows ⟨e.balances.insert key n, f⟩ ⟨b.accountDB.insert key (Cpp.toString n), log, f⟩ where
  balances k := by
    by_cases hk : k = key
    · subst hk; simp
    · simp [Finmap.lookup_insert_of_ne _ hk, h.balances]
  seedFile := rfl

theorem transfer (h : Shows e b) (hnonneg : e.Nonneg) (hbounded : e.Bounded) {n : Int}
    (hn : c.amount = Cpp.toString n) (hpos : 0 < n) (hafter : (e.transfer c).Bounded) :
    Shows (e.transfer c) (b.transfer c) := by
  unfold Accounts.transfer Books.transfer at *
  rw [h.balances, h.balances]
  cases ha : e.balances.lookup c.account1 with
  | none => exact h
  | some x =>
    cases hb : e.balances.lookup c.account2 with
    | none => exact h
    | some y =>
      simp only [Option.map_some, value_toString, hn]
      split
      · next hle =>
        have := hnonneg _ _ ha
        have := hnonneg _ _ hb
        have := hbounded _ _ ha
        have hy : y + n ≤ 2 ^ 31 - 1 := by
          refine hafter c.account2 _ ?_
          simp [ha, hb, hn, hle]
        rw [Int.bmod_eq_of_le (n := x - n) (by omega) (by omega),
          Int.bmod_eq_of_le (n := y + n) (by omega) (by omega)]
        have hdebit := h.insert c.account1 (x - n) b.eventLog e.seedFile
        have hcredit := hdebit.insert c.account2 (y + n) (b.eventLog ++ c.entries) e.seedFile
        exact ⟨hcredit.balances, h.seedFile⟩
      · exact h

theorem create (h : Shows e b) (n : Int) : Shows (e.create n) (b.create n) := by
  unfold Accounts.create Books.create
  rw [h.seedFile]
  cases hgen : genAccountID {} e.seedFile with
  | mk exit f =>
    cases exit with
    | returned id => exact h.insert _ _ _ _
    | _ => exact h

theorem serve (h : Shows e b) (hnonneg : e.Nonneg) (hbounded : e.Bounded) {r : Request}
    (hafter : (e.serve (.int32 text) r).Bounded) :
    Shows (e.serve (.int32 text) r) (b.serve (.int32 text) r) := by
  unfold Accounts.serve Books.serve at *
  cases hc : r.command (.int32 text) with
  | some c =>
    obtain ⟨n, hpos, -, hn, -⟩ := Request.command_accepted hc
    rw [hc] at hafter
    exact h.transfer hnonneg hbounded hn hpos hafter
  | none =>
    cases hn : r.startAmount (.int32 text) with
    | some n => exact h.create n
    | none => exact h

theorem funded {w : Wallet} (h : Shows e w.books) {x y n : Int} (hn : c.amount = Cpp.toString n) :
    Funded w.accountDB c x y n ↔
      e.balances.lookup c.account1 = some x ∧ e.balances.lookup c.account2 = some y ∧ n ≤ x := by
  have hlookup : ∀ key z, w.accountDB.lookup key = some (Cpp.toString z) ↔
      e.balances.lookup key = some z := by
    intro key z
    have hkey : w.accountDB.lookup key = _ := h.balances key
    rw [hkey]
    cases e.balances.lookup key with
    | none => simp
    | some z' => simp [Cpp.toString_injective.eq_iff]
  constructor
  · intro hf
    exact ⟨(hlookup _ _).mp hf.sender, (hlookup _ _).mp hf.receiver, hf.enough⟩
  · rintro ⟨hx, hy, hle⟩
    exact ⟨(hlookup _ _).mpr hx, (hlookup _ _).mpr hy, hn, hle⟩

theorem nonneg {w : Wallet} (h : Shows e w.books) (hnonneg : e.Nonneg) {key t : String}
    (ht : w.accountDB.lookup key = some t) : 0 ≤ value t := by
  have hkey : w.accountDB.lookup key = _ := h.balances key
  rw [ht] at hkey
  cases hx : e.balances.lookup key with
  | none => rw [hx] at hkey; cases hkey
  | some x =>
    rw [hx] at hkey
    cases hkey
    rw [value_toString]
    exact hnonneg key x hx

end Shows

section Runs

variable (text : Status → String)

theorem accounts_nonneg (rs : List Request) : (Accounts.serveAll (.int32 text) {} rs).Nonneg := by
  induction rs using List.reverseRecOn with
  | nil =>
    intro key b h
    simp [Accounts.serveAll] at h
  | append_singleton rs r ih =>
    rw [Accounts.serveAll_concat]
    exact ih.serve r

theorem shows_of_bounded (rs : List Request)
    (h : ∀ pre, pre <+: rs → (Accounts.serveAll (.int32 text) {} pre).Bounded) :
    Shows (Accounts.serveAll (.int32 text) {} rs) (serveAll (.int32 text) .empty rs).books := by
  induction rs using List.reverseRecOn with
  | nil => exact ⟨fun key => rfl, rfl⟩
  | append_singleton rs r ih =>
    obtain ⟨hrs, hafter⟩ := forall_prefix_concat.mp h
    have hready : (serveAll (.int32 text) .empty rs).Ready := Wallet.Ready.empty.serveAll rs
    rw [Accounts.serveAll_concat] at hafter ⊢
    have hstep := (ih hrs).serve (accounts_nonneg text rs) (hrs rs (List.prefix_refl _)) hafter
    rw [← (books_serve hready r).1] at hstep
    rw [serveAll_concat]
    exact hstep

theorem computes_bounded_iff {rs : List Request} {r : Request}
    (h : ∀ pre, pre <+: rs → (Accounts.serveAll (.int32 text) {} pre).Bounded) :
    (∀ a b n, Computes (.int32 text) (serveAll (.int32 text) .empty rs) r a b n →
      fits32 (a - n) = true ∧ fits32 (b + n) = true) ↔
      ((Accounts.serveAll (.int32 text) {} rs).serve (.int32 text) r).Bounded := by
  have hready : (serveAll (.int32 text) .empty rs).Ready := Wallet.Ready.empty.serveAll rs
  have hshows := shows_of_bounded text rs h
  have hbounded := h rs (List.prefix_refl rs)
  have hnonneg := accounts_nonneg text rs
  simp only [computes_iff hready]
  constructor
  · intro hfits
    refine hbounded.serve fun c a b n hc ha hb hn hle => ?_
    have hf := (hshows.funded hn).mpr ⟨ha, hb, hle⟩
    have := (fits32_iff.mp (hfits a b n ⟨c, hc, hf⟩).2).2
    omega
  · rintro hafter a b n ⟨c, hc, hf⟩
    obtain ⟨m, hpos, -, hm, -⟩ := Request.command_accepted hc
    obtain rfl : m = n := Cpp.toString_injective (hm.symm.trans hf.amount)
    obtain ⟨ha, hb, hle⟩ := (hshows.funded hm).mp hf
    have := hnonneg _ _ ha
    have := hnonneg _ _ hb
    have := hbounded _ _ ha
    have := hafter _ _ (Accounts.lookup_credited hc ha hb hm hle)
    exact ⟨fits32_iff.mpr (by omega), fits32_iff.mpr (by omega)⟩

/-- No addition or subtraction of APPLY leaves `int` in a run, and no stored
balance is negative, just when the exact balances of the run stay within `int`. -/
theorem credit_fits_iff (rs : List Request) :
    ((∀ pre r a b n, pre ++ [r] <+: rs →
        Computes (.int32 text) (serveAll (.int32 text) .empty pre) r a b n →
        fits32 (a - n) = true ∧ fits32 (b + n) = true) ∧
      ∀ pre key t, pre <+: rs →
        (serveAll (.int32 text) .empty pre).accountDB.lookup key = some t → 0 ≤ value t) ↔
      ∀ pre, pre <+: rs → (Accounts.serveAll (.int32 text) {} pre).Bounded := by
  constructor
  · rintro ⟨hfits, -⟩
    induction rs using List.reverseRecOn with
    | nil =>
      intro pre hpre key b hb
      rw [List.prefix_nil.mp hpre] at hb
      simp [Accounts.serveAll] at hb
    | append_singleton rs r ih =>
      have hrs := ih fun pre r' a b n hpre => hfits pre r' a b n (hpre.trans (List.prefix_append _ _))
      refine forall_prefix_concat.mpr ⟨hrs, ?_⟩
      rw [Accounts.serveAll_concat]
      exact (computes_bounded_iff text hrs).mp fun a b n => hfits rs r a b n (List.prefix_refl _)
  · intro h
    constructor
    · intro pre r a b n hpre
      obtain ⟨hrs, hlast⟩ := forall_prefix_concat.mp fun p hp => h p (hp.trans hpre)
      rw [Accounts.serveAll_concat] at hlast
      exact (computes_bounded_iff text hrs).mpr hlast a b n
    · intro pre key t hpre ht
      have hshows := shows_of_bounded text pre fun p hp => h p (hp.trans hpre)
      exact hshows.nonneg (accounts_nonneg text pre) ht

end Runs

def overflowTransfer : Request :=
  .balanceTransfer (some "700000001") (some "700000002") (some "1") "tx-1"

def overflowRequests : List Request :=
  [.createAccount (some "2147483647"), .createAccount (some "2147483647"),
    overflowTransfer]

def overflowState (n : Nat) : Wallet :=
  serveAll (.int32 exampleText) .empty (overflowRequests.take n)

theorem overflowState_computes :
    Computes (.int32 exampleText) (overflowState 2) overflowTransfer 2147483647 2147483647 1 := by
  refine ⟨(overflowState 3).history.drop (overflowState 2).history.length,
    ⟨"tx-1", "700000001", "700000002", "1", "TRANSFER"⟩, "2147483647", "2147483647", ?_⟩
  decide +kernel

theorem credit_overflows :
    (∃ r a b n, overflowRequests.take 2 ++ [r] <+: overflowRequests ∧
      Computes (.int32 exampleText) (overflowState 2) r a b n ∧ fits32 (b + n) = false) ∧
    (overflowState 3).accountDB.lookup "700000002" = some "-2147483648" ∧
      value "-2147483648" < 0 := by
  refine ⟨⟨overflowTransfer, 2147483647, 2147483647, 1, List.prefix_refl _, overflowState_computes,
    by decide⟩, by decide +kernel, by decide +kernel⟩

section Issuance

variable (text : Status → String)

def startAmounts (P : Platform) (rs : List Request) : Int :=
  (rs.filterMap (Request.startAmount P)).sum

theorem startAmounts_concat (P : Platform) (rs : List Request) (r : Request) :
    startAmounts P (rs ++ [r]) = startAmounts P rs + (r.startAmount P).getD 0 := by
  cases h : r.startAmount P <;> simp [startAmounts, h]

theorem startAmount_nonneg (P : Platform) (r : Request) : 0 ≤ (r.startAmount P).getD 0 := by
  cases h : r.startAmount P with
  | none => simp
  | some n =>
    obtain ⟨startAmount, rfl, hcheck⟩ := Request.startAmount_eq_some h
    exact (checkStartAmount_ok hcheck).1

theorem Accounts.total_transfer {balances : Finmap fun _ : String => Int} {c : Command} {a b : Int}
    (n : Int) (hne : c.account1 ≠ c.account2) (ha : balances.lookup c.account1 = some a)
    (hb : balances.lookup c.account2 = some b) :
    total id ((balances.insert c.account1 (a - n)).insert c.account2 (b + n)) =
      total id balances := by
  rw [total_insert, total_insert, weightAt_insert_of_ne hne.symm, weightAt_of_lookup ha,
    weightAt_of_lookup hb]
  simp only [id]
  omega

theorem Accounts.total_serve {P : Platform} {e : Accounts} {r : Request} (he : e.Nonneg)
    (hself : ∀ c a b n, r.command P = some c → e.balances.lookup c.account1 = some a →
      e.balances.lookup c.account2 = some b → c.amount = Cpp.toString n → n ≤ a →
      c.account1 ≠ c.account2) :
    total id (e.serve P r).balances ≤ total id e.balances + (r.startAmount P).getD 0 := by
  have hr := startAmount_nonneg P r
  rcases serve_cases P e r with heq | ⟨key, n, hn, heq⟩ | ⟨c, a, b, n, hc, ha, hb, hn, -, hle, heq⟩
  · rw [heq]
    omega
  · have hold := weightAt_nonneg (v := id) he key
    rw [heq, total_insert, hn]
    simp only [id, Option.getD_some] at hold ⊢
    omega
  · rw [heq, total_transfer n (hself c a b n hc ha hb hn hle) ha hb]
    omega

theorem mem_enteredApply_serve {w : Wallet} {r : Request} {c : Command} {a b n : Int}
    (hw : w.Ready) (hc : r.command (.int32 text) = some c) (hf : Funded w.accountDB c a b n) :
    c ∈ enteredApply (serve (.int32 text) w r).history := by
  obtain ⟨trail, htrail, hhistory⟩ := serve_command (P := .int32 text) hw.lock hw.listen hc
  rw [hhistory, enteredApply_append, htrail.serve_apply, if_pos (validation_of_funded hw hc hf)]
  exact List.mem_append_right _ (List.mem_singleton_self c)

theorem bounded_of_issuance (rs : List Request)
    (hsum : startAmounts (.int32 text) rs ≤ 2 ^ 31 - 1)
    (hself : ∀ c ∈ enteredApply (serveAll (.int32 text) .empty rs).history,
      c.account1 ≠ c.account2) :
    (∀ pre, pre <+: rs → (Accounts.serveAll (.int32 text) {} pre).Bounded) ∧
      total id (Accounts.serveAll (.int32 text) {} rs).balances ≤ startAmounts (.int32 text) rs := by
  induction rs using List.reverseRecOn with
  | nil =>
    refine ⟨fun pre hpre key b hb => ?_, by simp [Accounts.serveAll, startAmounts]⟩
    rw [List.prefix_nil.mp hpre] at hb
    simp [Accounts.serveAll] at hb
  | append_singleton rs r ih =>
    have hready : (serveAll (.int32 text) .empty rs).Ready := Wallet.Ready.empty.serveAll rs
    have hr := startAmount_nonneg (.int32 text) r
    rw [startAmounts_concat] at hsum ⊢
    rw [serveAll_concat] at hself
    rw [Accounts.serveAll_concat]
    obtain ⟨cs, -, hentered⟩ := (serves (P := .int32 text) hready.lock r).entered
    obtain ⟨hbounded, htotal⟩ := ih (by omega) fun c hc => hself c (by
      rw [hentered]
      exact List.mem_append_left _ hc)
    have hnonneg := accounts_nonneg text rs
    have hshows := shows_of_bounded text rs hbounded
    have hstep := Accounts.total_serve (P := .int32 text) (r := r) hnonneg
      fun c a b n hc ha hb hn hle => hself c
        (mem_enteredApply_serve text hready hc ((hshows.funded hn).mpr ⟨ha, hb, hle⟩))
    refine ⟨forall_prefix_concat.mpr ⟨hbounded, ?_⟩, by omega⟩
    rw [Accounts.serveAll_concat]
    intro key b hb
    have := lookup_le_total (v := id) (hnonneg.serve r) hb
    simp only [id] at this
    omega

/-- Where an addition or subtraction of APPLY leaves `int`, or a stored balance
is negative, more than the largest `int` has been issued or an account has paid
itself. -/
theorem overflow_sources (rs : List Request) :
    (∀ r a b n, Computes (.int32 text) (serveAll (.int32 text) .empty rs) r a b n →
      fits32 (a - n) = false ∨ fits32 (b + n) = false →
      2 ^ 31 - 1 < startAmounts (.int32 text) rs ∨
        ∃ c ∈ enteredApply (serve (.int32 text) (serveAll (.int32 text) .empty rs) r).history,
          c.account1 = c.account2) ∧
    ∀ key t, (serveAll (.int32 text) .empty rs).accountDB.lookup key = some t → value t < 0 →
      2 ^ 31 - 1 < startAmounts (.int32 text) rs ∨
        ∃ c ∈ enteredApply (serveAll (.int32 text) .empty rs).history, c.account1 = c.account2 := by
  constructor
  · intro r a b n hcomputes hover
    by_contra hno
    simp only [not_or, not_exists, not_and, not_lt] at hno
    have hready : (serveAll (.int32 text) .empty rs).Ready := Wallet.Ready.empty.serveAll rs
    obtain ⟨c, hc, -⟩ := (computes_iff hready).mp hcomputes
    have hnone : (r.startAmount (.int32 text)).getD 0 = 0 := by
      obtain ⟨_, _, _, _, rfl, -⟩ := Request.command_eq_some hc
      rfl
    have hall := bounded_of_issuance text (rs ++ [r]) (by rw [startAmounts_concat]; omega)
      (by rw [serveAll_concat]; exact hno.2)
    obtain ⟨hrs, hlast⟩ := forall_prefix_concat.mp hall.1
    rw [Accounts.serveAll_concat] at hlast
    have hfits := (computes_bounded_iff text hrs).mpr hlast a b n hcomputes
    rcases hover with hover | hover
    · cases hover.symm.trans hfits.1
    · cases hover.symm.trans hfits.2
  · intro key t ht hneg
    by_contra hno
    simp only [not_or, not_exists, not_and, not_lt] at hno
    have hall := bounded_of_issuance text rs hno.1 hno.2
    have := (shows_of_bounded text rs hall.1).nonneg (accounts_nonneg text rs) ht
    omega

theorem overflow_sources_example :
    2 ^ 31 - 1 < startAmounts (.int32 exampleText) (overflowRequests.take 2) ∨
      ∃ c ∈ enteredApply (serve (.int32 exampleText) (overflowState 2) overflowTransfer).history,
        c.account1 = c.account2 :=
  (overflow_sources exampleText (overflowRequests.take 2)).1 overflowTransfer _ _ _
    overflowState_computes (.inr (by decide))

end Issuance

end DigitalWallet
