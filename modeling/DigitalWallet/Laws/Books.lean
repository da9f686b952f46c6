import DigitalWallet.Laws.Serve

namespace DigitalWallet

open Lib

structure Books where
  accountDB : AccountDB
  eventLog : List LogEntry
  seedFile : SeedFile

def Wallet.books (w : Wallet) : Books := ⟨w.accountDB, w.eventLog, w.seedFile⟩

def Request.startAmount (P : Platform) : Request → Option Int
  | .createAccount startAmount => (checkStartAmount P startAmount).toOption
  | _ => none

theorem Request.startAmount_eq_some {P : Platform} {r : Request} {n : Int}
    (h : r.startAmount P = some n) :
    ∃ startAmount, r = .createAccount startAmount ∧ checkStartAmount P startAmount = .ok n := by
  cases r with
  | createAccount startAmount =>
    refine ⟨startAmount, rfl, ?_⟩
    cases hcheck : checkStartAmount P startAmount with
    | error e => simp [Request.startAmount, hcheck, Except.toOption] at h
    | ok m => simpa [Request.startAmount, hcheck, Except.toOption] using h
  | _ => cases h

namespace Books

def transfer (b : Books) (c : Command) : Books :=
  match b.accountDB.lookup c.account1, b.accountDB.lookup c.account2 with
  | some sender, some receiver =>
    if value c.amount ≤ value sender then
      { b with
        accountDB := (b.accountDB.insert c.account1
          (Cpp.toString ((value sender - value c.amount).bmod (2 ^ 32)))).insert c.account2
            (Cpp.toString ((value receiver + value c.amount).bmod (2 ^ 32)))
        eventLog := b.eventLog ++ c.entries }
    else b
  | _, _ => b

def create (b : Books) (n : Int) : Books :=
  match genAccountID {} b.seedFile with
  | (.returned id, f) =>
    { b with accountDB := b.accountDB.insert id (Cpp.toString n), seedFile := f }
  | _ => b

def serve (P : Platform) (b : Books) (r : Request) : Books :=
  match r.command P, r.startAmount P with
  | some c, _ => b.transfer c
  | none, some n => b.create n
  | none, none => b

def serveAll (P : Platform) (b : Books) (rs : List Request) : Books := rs.foldl (serve P) b

theorem transfer_of_funded {b : Books} {c : Command} {x y n : Int}
    (hf : Funded b.accountDB c x y n) :
    b.transfer c =
      { b with
        accountDB := (b.accountDB.insert c.account1 (Cpp.toString ((x - n).bmod (2 ^ 32)))).insert
          c.account2 (Cpp.toString ((y + n).bmod (2 ^ 32)))
        eventLog := b.eventLog ++ c.entries } := by
  simp [transfer, hf.sender, hf.receiver, hf.amount, hf.enough]

theorem transfer_of_not_funded {V : Int → Prop} {P : Platform} {b : Books} {c : Command}
    (ht : Texts V b.accountDB) (hc : Accepted P c)
    (h : ¬ ∃ x y n, Funded b.accountDB c x y n) : b.transfer c = b := by
  obtain ⟨n, -, -, hn, -⟩ := hc
  unfold transfer
  split
  · next hs hr =>
    obtain ⟨x, -, rfl⟩ := ht _ _ hs
    obtain ⟨y, -, rfl⟩ := ht _ _ hr
    rw [if_neg]
    intro hle
    exact h ⟨x, y, n, hs, hr, hn, by simpa [hn] using hle⟩
  · rfl

def opened (b : Books) (id text : String) (f : SeedFile) : Books :=
  { b with accountDB := b.accountDB.insert id text, seedFile := f }

section Order

variable {P : Platform} {b : Books} {c : Command} {id text : String} {f : SeedFile}

@[simp] theorem transfer_seedFile (b : Books) (c : Command) : (b.transfer c).seedFile = b.seedFile := by
  unfold transfer
  split
  · split <;> rfl
  · rfl

theorem mem_transfer {key : String} : key ∈ (b.transfer c).accountDB ↔ key ∈ b.accountDB := by
  unfold transfer
  split
  · next hs hr =>
    have h1 := Finmap.mem_of_lookup_eq_some hs
    have h2 := Finmap.mem_of_lookup_eq_some hr
    split
    · exact (mem_insert_of_mem ((mem_insert_of_mem h1).mpr h2)).trans (mem_insert_of_mem h1)
    · rfl
  · rfl

theorem transfer_of_absent (h : c.account1 ∉ b.accountDB ∨ c.account2 ∉ b.accountDB) :
    b.transfer c = b := by
  unfold transfer
  split
  · next hs hr =>
    rcases h with h | h
    · exact absurd (Finmap.mem_of_lookup_eq_some hs) h
    · exact absurd (Finmap.mem_of_lookup_eq_some hr) h
  · rfl

theorem lookup_transfer {key : String} (h1 : key ≠ c.account1) (h2 : key ≠ c.account2) :
    (b.transfer c).accountDB.lookup key = b.accountDB.lookup key := by
  unfold transfer
  split
  · split
    · rw [Finmap.lookup_insert_of_ne _ h2, Finmap.lookup_insert_of_ne _ h1]
    · rfl
  · rfl

theorem texts_transfer (h : Texts (fun n => fits32 n = true) b.accountDB)
    (c : Command) : Texts (fun n => fits32 n = true) (b.transfer c).accountDB := by
  have hfits : ∀ n : Int, fits32 (n.bmod (2 ^ 32)) = true := fun n =>
    (Platform.int32_holds fun _ => "").arith n
  unfold transfer
  split
  · split
    · exact (h.insert _ (hfits _)).insert _ (hfits _)
    · exact h
  · exact h

theorem mem_serve {key : String} (r : Request) (h : key ∈ b.accountDB) :
    key ∈ (b.serve P r).accountDB := by
  unfold serve
  split
  · exact mem_transfer.mpr h
  · unfold create
    split
    · exact (Finmap.mem_insert).mpr (.inr h)
    · exact h
  · exact h

theorem mem_serveAll {key : String} (rs : List Request) (h : key ∈ b.accountDB) :
    key ∈ (b.serveAll P rs).accountDB := by
  induction rs generalizing b with
  | nil => exact h
  | cons r rs ih => exact ih (mem_serve r h)

theorem serveAll_append (b : Books) (rs rs' : List Request) :
    b.serveAll P (rs ++ rs') = (b.serveAll P rs).serveAll P rs' := List.foldl_append ..

theorem serveAll_of_fixed {rs : List Request} (h : ∀ r ∈ rs, b.serve P r = b) :
    b.serveAll P rs = b := by
  induction rs with
  | nil => rfl
  | cons r rs ih =>
    rw [serveAll, List.foldl_cons, h r List.mem_cons_self]
    exact ih fun r' hr' => h r' (List.mem_cons_of_mem _ hr')

theorem create_eq_opened (n : Int) (h : genAccountID {} b.seedFile = (.returned id, f)) :
    b.create n = b.opened id (Cpp.toString n) f := by
  simp [create, opened, h]

theorem transfer_opened (h1 : c.account1 ≠ id) (h2 : c.account2 ≠ id) :
    (b.opened id text f).transfer c = (b.transfer c).opened id text f := by
  simp only [transfer, opened, Finmap.lookup_insert_of_ne _ h1, Finmap.lookup_insert_of_ne _ h2]
  split
  · split
    · rw [Finmap.insert_insert_of_ne _ h1.symm, Finmap.insert_insert_of_ne _ h2.symm]
    · rfl
  · rfl

def Avoid (P : Platform) (id : String) (rs : List Request) : Prop :=
  ∀ r ∈ rs, ∃ c, r.command P = some c ∧ c.account1 ≠ id ∧ c.account2 ≠ id

theorem serveAll_opened {rs : List Request} (h : Avoid P id rs) :
    (b.opened id text f).serveAll P rs = (b.serveAll P rs).opened id text f := by
  induction rs generalizing b with
  | nil => rfl
  | cons r rs ih =>
    obtain ⟨c, hc, h1, h2⟩ := h r List.mem_cons_self
    have hserve : ∀ b : Books, b.serve P r = b.transfer c := fun b => by simp [serve, hc]
    simp only [serveAll, List.foldl_cons, hserve, transfer_opened h1 h2]
    exact ih fun r' hr' => h r' (List.mem_cons_of_mem _ hr')

theorem serveAll_seedFile {rs : List Request} (h : ∀ r ∈ rs, ∃ c, r.command P = some c) :
    (b.serveAll P rs).seedFile = b.seedFile := by
  induction rs generalizing b with
  | nil => rfl
  | cons r rs ih =>
    obtain ⟨c, hc⟩ := h r List.mem_cons_self
    have hserve : b.serve P r = b.transfer c := by simp [serve, hc]
    simp only [serveAll, List.foldl_cons, hserve] at ih ⊢
    rw [ih fun r' hr' => h r' (List.mem_cons_of_mem _ hr'), transfer_seedFile]

theorem serveAll_insert {creates transfers : List Request} {r : Request} {n : Int}
    (hr : r.command P = none) (hn : r.startAmount P = some n) (ht : Avoid P id transfers)
    (hgen : genAccountID {} (b.serveAll P (creates ++ transfers)).seedFile = (.returned id, f)) :
    b.serveAll P (creates ++ [r] ++ transfers) =
      (b.serveAll P (creates ++ transfers)).opened id (Cpp.toString n) f := by
  rw [serveAll_append, serveAll_seedFile fun r hr => (ht r hr).imp fun c h => h.1] at hgen
  have hserve : (b.serveAll P creates).serveAll P [r] =
      (b.serveAll P creates).opened id (Cpp.toString n) f := by
    rw [← create_eq_opened n hgen]
    simp [serveAll, serve, hr, hn]
  rw [serveAll_append, serveAll_append, serveAll_append, hserve, serveAll_opened ht]

end Order

end Books

/-- A service at rest. -/
structure Wallet.Ready (w : Wallet) : Prop where
  listen : w.currentState = .listen
  lock : w.cvM = false
  texts : Texts (fun n => fits32 n = true) w.accountDB

section Refinement

variable {text : Status → String} {w : Wallet}

theorem books_of_command (hw : w.Ready) {r : Request} {c : Command}
    (hc : r.command (.int32 text) = some c) :
    (serve (.int32 text) w r).books = w.books.transfer c ∧ (serve (.int32 text) w r).Ready := by
  have hserves := serves (P := .int32 text) hw.lock r
  generalize serve (.int32 text) w r = w' at hserves
  cases hserves with
  | idle hnone => cases hc.symm.trans hnone
  | look hnone => cases hc.symm.trans hnone
  | create hr => cases hr; cases hc
  | wait _ hlisten => exact absurd hw.listen hlisten
  | @transfer c' _ hc' _ _ =>
    cases hc.symm.trans hc'
    have haccepted := Request.command_accepted hc
    have htexts := hw.texts.verdict (c := c) (Platform.int32_holds text)
      (verdict (.int32 text) .succeed w.accountDB c)
    rcases verdict_succeed (fun _ h => h) hw.texts haccepted with
      ⟨s, -, hv, hno⟩ | ⟨a, b, n, hf, -, -, -, hv⟩
    · rw [hv] at htexts ⊢
      exact ⟨(Books.transfer_of_not_funded hw.texts haccepted hno).symm, rfl, hw.lock, htexts⟩
    · rw [hv] at htexts ⊢
      have hmoved := Books.transfer_of_funded (b := w.books) hf
      exact ⟨hmoved.symm, rfl, hw.lock, htexts⟩

theorem books_of_startAmount (hw : w.Ready) {startAmount : Option String} {n : Int}
    (hn : checkStartAmount (.int32 text) startAmount = .ok n) :
    (serve (.int32 text) w (.createAccount startAmount)).books = w.books.create n ∧
      (serve (.int32 text) w (.createAccount startAmount)).Ready := by
  obtain ⟨k, -, -, hgen⟩ | ⟨-, hgen⟩ | ⟨-, hgen⟩ := genAccountID_cases w.seedFile
  · rw [serve, handler, createAccount_drawn (o := .succeed) hn hgen, storeAccount_run _ _ rfl]
    refine ⟨by simp [Books.create, Wallet.books, hgen], hw.listen, hw.lock, ?_⟩
    exact hw.texts.insert _ (checkStartAmount_ok hn).2
  · rw [serve, handler, createAccount_threw (o := .succeed) hn hgen]
    exact ⟨by simp [Books.create, Wallet.books, hgen], hw⟩
  · rw [serve, handler, createAccount_overflow (o := .succeed) hn hgen]
    exact ⟨by simp [Books.create, Wallet.books, hgen], hw⟩

/-- A request handled alone by a service at rest refines the abstract one. -/
theorem books_serve (hw : w.Ready) (r : Request) :
    (serve (.int32 text) w r).books = w.books.serve (.int32 text) r ∧
      (serve (.int32 text) w r).Ready := by
  cases hc : r.command (.int32 text) with
  | some c =>
    have := books_of_command hw hc
    simpa [Books.serve, hc] using this
  | none =>
    cases hn : r.startAmount (.int32 text) with
    | some n =>
      obtain ⟨startAmount, rfl, hcheck⟩ := Request.startAmount_eq_some hn
      have := books_of_startAmount hw hcheck
      simpa [Books.serve, hc, hn] using this
    | none =>
      have hserves := serves (P := .int32 text) hw.lock r
      generalize serve (.int32 text) w r = w' at hserves
      simp only [Books.serve, hc, hn]
      cases hserves with
      | idle => exact ⟨rfl, hw⟩
      | look => exact ⟨rfl, hw.listen, hw.lock, hw.texts⟩
      | create hr hcheck => cases hr; simp [Request.startAmount, hcheck, Except.toOption] at hn
      | wait hsome => cases hc.symm.trans hsome
      | transfer hsome => cases hc.symm.trans hsome

theorem Wallet.Ready.empty : Wallet.empty.Ready := ⟨rfl, rfl, Texts.empty⟩

theorem Wallet.Ready.serveAll (hw : w.Ready) (rs : List Request) :
    (serveAll (.int32 text) w rs).Ready := by
  induction rs generalizing w with
  | nil => exact hw
  | cons r rs ih => exact ih (books_serve hw r).2

theorem books_serveAll (hw : w.Ready) (rs : List Request) :
    (serveAll (.int32 text) w rs).books = w.books.serveAll (.int32 text) rs := by
  induction rs generalizing w with
  | nil => rfl
  | cons r rs ih =>
    obtain ⟨hbooks, hready⟩ := books_serve hw r
    rw [Books.serveAll, List.foldl_cons, ← hbooks]
    exact ih hready

end Refinement

end DigitalWallet
