import Mathlib.Algebra.Group.Hom.Defs
import Mathlib.Algebra.Order.Monoid.Defs
import Mathlib.Data.List.Basic
import Mathlib.Tactic.Abel

namespace DigitalWallet.Lib

section Run

variable {σ ℓ : Type} (step : σ → ℓ → Option σ)

def run : σ → List ℓ → Option σ
  | s, [] => some s
  | s, l :: ls => (step s l).bind fun s' => run s' ls

def Reachable (init s : σ) : Prop := ∃ ls, run step init ls = some s

/-- Every step of the run from `s` along `ls` starts in a state and carries a
label that `C` relates. -/
def Meets (C : σ → ℓ → Prop) : σ → List ℓ → Prop
  | _, [] => True
  | s, l :: ls => C s l ∧ ∀ s', step s l = some s' → Meets C s' ls

variable {step}

theorem run_cons {s s' : σ} {l : ℓ} {ls : List ℓ} (h : run step s (l :: ls) = some s') :
    ∃ t, step s l = some t ∧ run step t ls = some s' := by
  simpa [run, Option.bind_eq_some_iff] using h

theorem run_append (s : σ) (xs ys : List ℓ) :
    run step s (xs ++ ys) = (run step s xs).bind fun t => run step t ys := by
  induction xs generalizing s with
  | nil => rfl
  | cons x xs ih => simp only [List.cons_append, run, Option.bind_assoc, ih]

theorem run_behind {s t u s' : σ} {l : ℓ} {pre post : List ℓ} (h : run step s (pre ++ l :: post) = some s')
    (hpre : run step s pre = some t) (hl : step t l = some u) : run step u post = some s' := by
  rw [run_append, hpre, Option.bind_some, run, hl, Option.bind_some] at h
  exact h

instance Meets.instDecidable {C : σ → ℓ → Prop} [∀ s l, Decidable (C s l)] :
    ∀ s ls, Decidable (Meets step C s ls)
  | _, [] => isTrue trivial
  | s, l :: ls =>
    match h : step s l with
    | none => decidable_of_iff (C s l) (by simp [Meets, h])
    | some t =>
      have := Meets.instDecidable (C := C) t ls
      decidable_of_iff (C s l ∧ Meets step C t ls) (by simp [Meets, h])

theorem run_invariant {I : σ → Prop} {C : σ → ℓ → Prop}
    (hstep : ∀ {s l s'}, I s → C s l → step s l = some s' → I s')
    {ls : List ℓ} {s s' : σ} (h0 : I s) (hC : Meets step C s ls)
    (h : run step s ls = some s') : I s' := by
  induction ls generalizing s with
  | nil => cases h; exact h0
  | cons l ls ih =>
    obtain ⟨t, ht, hrest⟩ := run_cons h
    exact ih (hstep h0 hC.1 ht) (hC.2 t ht) hrest

theorem run_history {I : List ℓ → σ → Prop} {C : σ → ℓ → Prop}
    (hstep : ∀ {pre s l s'}, I pre s → C s l → step s l = some s' → I (pre ++ [l]) s')
    {pre ls : List ℓ} {s s' : σ} (h0 : I pre s) (hC : Meets step C s ls)
    (h : run step s ls = some s') : I (pre ++ ls) s' := by
  induction ls generalizing pre s with
  | nil => cases h; simpa using h0
  | cons l ls ih =>
    obtain ⟨t, ht, hrest⟩ := run_cons h
    simpa using ih (hstep h0 hC.1 ht) (hC.2 t ht) hrest

theorem Meets.of_forall {C : σ → ℓ → Prop} {ls : List ℓ} (h : ∀ l ∈ ls, ∀ s, C s l) (s : σ) :
    Meets step C s ls := by
  induction ls generalizing s with
  | nil => trivial
  | cons l ls ih =>
    exact ⟨h l List.mem_cons_self s, fun t _ => ih (fun l' hl => h l' (List.mem_cons_of_mem _ hl)) t⟩

theorem Meets.and {C D : σ → ℓ → Prop} {ls : List ℓ} {s : σ} (hC : Meets step C s ls)
    (hD : Meets step D s ls) : Meets step (fun s l => C s l ∧ D s l) s ls := by
  induction ls generalizing s with
  | nil => trivial
  | cons l ls ih => exact ⟨⟨hC.1, hD.1⟩, fun t ht => ih (hC.2 t ht) (hD.2 t ht)⟩

theorem Meets.here {C : σ → ℓ → Prop} {pre post : List ℓ} {l : ℓ} {s t : σ}
    (h : Meets step C s (pre ++ l :: post)) (hrun : run step s pre = some t) : C t l := by
  induction pre generalizing s with
  | nil => cases hrun; exact h.1
  | cons x pre ih =>
    obtain ⟨u, hu, hrest⟩ := run_cons hrun
    exact ih (h.2 u hu) hrest

theorem Meets.append {C : σ → ℓ → Prop} {xs ys : List ℓ} {s t : σ} (h : Meets step C s xs)
    (hrun : run step s xs = some t) (h' : Meets step C t ys) : Meets step C s (xs ++ ys) := by
  induction xs generalizing s with
  | nil => cases hrun; exact h'
  | cons x xs ih =>
    obtain ⟨u, hu, hrest⟩ := run_cons hrun
    refine ⟨h.1, fun u' hu' => ?_⟩
    cases hu.symm.trans hu'
    exact ih (h.2 u hu) hrest

theorem exists_violation {C : σ → ℓ → Prop} {ls : List ℓ} {s s' : σ} (h : run step s ls = some s')
    (hC : ¬ Meets step C s ls) :
    ∃ pre l post t, ls = pre ++ l :: post ∧ run step s pre = some t ∧ Meets step C s pre ∧ ¬ C t l := by
  induction ls generalizing s with
  | nil => exact absurd trivial hC
  | cons l ls ih =>
    obtain ⟨u, hu, hrest⟩ := run_cons h
    by_cases hl : C s l
    · have hlater : ¬ Meets step C u ls := by
        refine fun hmeets => hC ⟨hl, fun u' hu' => ?_⟩
        cases hu.symm.trans hu'
        exact hmeets
      obtain ⟨pre, x, post, t, rfl, hrun, hmeets, hx⟩ := ih hrest hlater
      refine ⟨l :: pre, x, post, t, rfl, by simp [run, hu, hrun], ⟨hl, fun u' hu' => ?_⟩, hx⟩
      cases hu.symm.trans hu'
      exact hmeets
    · exact ⟨[], l, ls, s, rfl, rfl, trivial, hl⟩

/-- The dual rule: a step that breaks the side condition leaves a trace that no
later step removes. -/
theorem run_violation {I D : σ → Prop} {C : σ → ℓ → Prop}
    (hstep : ∀ {s l s'}, I s → C s l → step s l = some s' → I s')
    (hbreak : ∀ {s l s'}, I s → ¬ C s l → step s l = some s' → D s')
    (hkeep : ∀ {s l s'}, D s → step s l = some s' → D s')
    {ls : List ℓ} {s s' : σ} (h0 : I s) (h : run step s ls = some s')
    (hC : ¬ Meets step C s ls) : D s' := by
  obtain ⟨pre, l, post, t, rfl, hpre, hmeets, hl⟩ := exists_violation h hC
  rw [run_append, hpre, Option.bind_some] at h
  obtain ⟨u, hu, hrest⟩ := run_cons h
  exact run_invariant (C := fun _ _ => True) (fun hD _ hs => hkeep hD hs)
    (hbreak (run_invariant hstep h0 hmeets hpre) hl hu) (Meets.of_forall (fun _ _ _ => trivial) u) hrest

theorem Reachable.invariant {I : σ → Prop} (hstep : ∀ {s l s'}, I s → step s l = some s' → I s')
    {init s : σ} (h0 : I init) (h : Reachable step init s) : I s := by
  obtain ⟨ls, hls⟩ := h
  exact run_invariant (C := fun _ _ => True) (fun hi _ hs => hstep hi hs) h0
    (Meets.of_forall (fun _ _ _ => trivial) init) hls

section Leads

variable (step) in
/-- Some run from `s` to `s'` has steps that all meet `C`. -/
def Leads (C : σ → ℓ → Prop) (s s' : σ) : Prop := ∃ ls, run step s ls = some s' ∧ Meets step C s ls

variable {C : σ → ℓ → Prop} {s t u : σ}

theorem Leads.refl (s : σ) : Leads step C s s := ⟨[], rfl, trivial⟩

theorem Leads.single {l : ℓ} (hl : C s l) (h : step s l = some t) : Leads step C s t :=
  ⟨[l], by simp [run, h], hl, fun _ _ => trivial⟩

theorem Leads.trans (h : Leads step C s t) (h' : Leads step C t u) : Leads step C s u := by
  obtain ⟨xs, hxs, hmeets⟩ := h
  obtain ⟨ys, hys, hmeets'⟩ := h'
  exact ⟨xs ++ ys, by rw [run_append, hxs]; exact hys, hmeets.append hxs hmeets'⟩

end Leads

section Tally

variable {M : Type} [AddCommGroup M]

def tally (step : σ → ℓ → Option σ) (f : σ → ℓ → M) : σ → List ℓ → M
  | _, [] => 0
  | s, l :: ls => f s l + (step s l).elim 0 fun s' => tally step f s' ls

theorem run_tally {I : σ → Prop} {f : σ → ℓ → M} {φ : σ → M}
    (hI : ∀ {s l s'}, I s → step s l = some s' → I s')
    (hstep : ∀ {s l s'}, I s → step s l = some s' → φ s' = φ s + f s l)
    {ls : List ℓ} {s s' : σ} (h0 : I s) (h : run step s ls = some s') :
    φ s' = φ s + tally step f s ls := by
  induction ls generalizing s with
  | nil => cases h; simp [tally]
  | cons l ls ih =>
    obtain ⟨t, ht, hrest⟩ := run_cons h
    rw [ih (hI h0 ht) hrest, hstep h0 ht, tally, ht, Option.elim_some, add_assoc]

theorem tally_map {N : Type} [AddCommGroup N] (g : M →+ N) {f : σ → ℓ → M} (s : σ) (ls : List ℓ) :
    tally step (fun s l => g (f s l)) s ls = g (tally step f s ls) := by
  induction ls generalizing s with
  | nil => simp [tally]
  | cons l ls ih => cases hs : step s l <;> simp [tally, hs, ih]

theorem tally_sub {f g : σ → ℓ → M} (s : σ) (ls : List ℓ) :
    tally step (fun s l => f s l - g s l) s ls = tally step f s ls - tally step g s ls := by
  induction ls generalizing s with
  | nil => simp [tally]
  | cons l ls ih =>
    cases hs : step s l with
    | none => simp [tally, hs]
    | some s' =>
      simp only [tally, hs, Option.elim_some, ih]
      abel

theorem tally_nonneg [PartialOrder M] [IsOrderedAddMonoid M] {I : σ → Prop} {f : σ → ℓ → M}
    (hI : ∀ {s l s'}, I s → step s l = some s' → I s') (hf : ∀ {s l}, I s → 0 ≤ f s l)
    {ls : List ℓ} {s : σ} (h0 : I s) : 0 ≤ tally step f s ls := by
  induction ls generalizing s with
  | nil => exact le_rfl
  | cons l ls ih =>
    cases hs : step s l with
    | none => simpa [tally, hs] using hf h0
    | some s' =>
      simp only [tally, hs, Option.elim_some]
      exact add_nonneg (hf h0) (ih (hI h0 hs))

end Tally

end Run

structure Pool (σ τ : Type) where
  shared : σ
  threads : List τ
  deriving DecidableEq

namespace Pool

variable {σ τ : Type}

def advance (act : τ → σ → Option (τ × σ)) (p : Pool σ τ) (i : Nat) : Option (Pool σ τ) :=
  p.threads[i]?.bind fun t => (act t p.shared).map fun (t', s') => ⟨s', p.threads.set i t'⟩

theorem advance_cases {act : τ → σ → Option (τ × σ)} {p p' : Pool σ τ} {i : Nat}
    (h : p.advance act i = some p') :
    ∃ before t after t', p.threads[i]? = some t ∧ p.threads = before ++ t :: after ∧
      p'.threads = before ++ t' :: after ∧ act t p.shared = some (t', p'.shared) := by
  simp only [advance, Option.bind_eq_some_iff, Option.map_eq_some_iff] at h
  obtain ⟨t, ht, ⟨t', s'⟩, hact, rfl⟩ := h
  obtain ⟨hi, rfl⟩ := List.getElem?_eq_some_iff.mp ht
  refine ⟨p.threads.take i, p.threads[i], p.threads.drop (i + 1), t', ht, ?_, ?_, hact⟩
  · simp
  · simp [List.set_eq_take_append_cons_drop, hi]

theorem advance_set {act : τ → σ → Option (τ × σ)} {p p' : Pool σ τ} {i : Nat}
    (h : p.advance act i = some p') :
    ∃ t t', p.threads[i]? = some t ∧ act t p.shared = some (t', p'.shared) ∧
      p'.threads = p.threads.set i t' := by
  simp only [advance, Option.bind_eq_some_iff, Option.map_eq_some_iff] at h
  obtain ⟨t, ht, ⟨t', s'⟩, hact, rfl⟩ := h
  exact ⟨t, t', ht, hact, rfl⟩

end Pool

section Prefix

variable {α : Type} {xs : List α} {x : α}

theorem forall_prefix_concat {p : List α → Prop} :
    (∀ pre, pre <+: xs ++ [x] → p pre) ↔ (∀ pre, pre <+: xs → p pre) ∧ p (xs ++ [x]) := by
  constructor
  · intro h
    exact ⟨fun pre hpre => h pre (hpre.trans (List.prefix_append _ _)), h _ (List.prefix_refl _)⟩
  · rintro ⟨hxs, hlast⟩ pre hpre
    rcases List.prefix_concat_iff.mp hpre with rfl | hpre
    · exact hlast
    · exact hxs pre hpre

theorem forall_before_concat {p : List α → α → Prop} :
    (∀ pre y, pre ++ [y] <+: xs ++ [x] → p pre y) ↔
      (∀ pre y, pre ++ [y] <+: xs → p pre y) ∧ p xs x := by
  constructor
  · intro h
    exact ⟨fun pre y hpre => h pre y (hpre.trans (List.prefix_append _ _)),
      h xs x (List.prefix_refl _)⟩
  · rintro ⟨hxs, hlast⟩ pre y hpre
    rcases List.prefix_concat_iff.mp hpre with heq | hpre
    · obtain ⟨rfl, hy⟩ := List.append_inj' heq rfl
      cases hy
      exact hlast
    · exact hxs pre y hpre

end Prefix

section Replace

variable {α : Type} {x y : α} {before after : List α}

theorem forall_mem_replace {p : α → Prop} (h : ∀ z ∈ before ++ x :: after, p z) (hy : p y) :
    ∀ z ∈ before ++ y :: after, p z := by
  simp only [List.forall_mem_append, List.forall_mem_cons] at h ⊢
  exact ⟨h.1, hy, h.2.2⟩

theorem countP_split {p : α → Bool} (before : List α) (x : α) (after : List α) :
    (before ++ x :: after).countP p = (before ++ after).countP p + (p x).toNat := by
  rw [List.countP_append, List.countP_append, List.countP_cons, Nat.add_assoc]
  cases p x <;> rfl

theorem filterMap_split {β : Type} {f : α → Option β} (before : List α) (x : α) (after : List α) :
    ((before ++ x :: after).filterMap f).Perm ((f x).toList ++ (before ++ after).filterMap f) := by
  refine (List.perm_middle.filterMap f).trans (List.Perm.of_eq ?_)
  cases hx : f x <;> simp [hx]

end Replace

end DigitalWallet.Lib
