import DigitalWallet.Lib.Proc

namespace DigitalWallet.Lib

/-- `γ` is ghost state, which a program's own operations may move within the
guarantee.  `owns` is what a program must have to take an operation. -/
structure Contract (Op : Type) (Ret : Op → Type) (σ γ : Type) where
  step : (o : Op) → σ → Ret o → σ → Prop
  owns : σ → Prop
  invariant : σ → γ → Prop
  rely : σ → γ → σ → γ → Prop
  guarantee : γ → γ → Prop

namespace Contract

variable {Op : Type} {Ret : Op → Type} {ε α β σ γ : Type} (C : Contract Op Ret σ γ)

/-- Whatever the others do before each operation, the operation keeps the
invariant.  The program never throws, and returns with `Q`. -/
def Safe (Q : α → σ → γ → Prop) : Proc Op Ret ε α → σ → γ → Prop
  | .ret a, s, g => Q a s g
  | .throw _, _, _ => False
  | .op o k, s, g => C.owns s ∧ ∀ s' g', C.rely s g s' g' → C.invariant s' g' →
      ∀ r s'', C.step o s' r s'' →
        ∃ g'', C.invariant s'' g'' ∧ C.guarantee g' g'' ∧ Safe Q (k r) s'' g''

variable {C}

theorem Safe.mono {Q Q' : α → σ → γ → Prop} {p : Proc Op Ret ε α} {s : σ} {g : γ}
    (h : C.Safe Q p s g) (hQ : ∀ a s g, Q a s g → Q' a s g) : C.Safe Q' p s g := by
  induction p generalizing s g with
  | ret a => exact hQ a s g h
  | throw e => exact h
  | op o k ih =>
    refine ⟨h.1, ?_⟩
    intro s' g' hrely hinv r s'' hstep
    obtain ⟨g'', hinv', hguar, hsafe⟩ := h.2 s' g' hrely hinv r s'' hstep
    exact ⟨g'', hinv', hguar, ih r hsafe⟩

theorem Safe.bind {Q : β → σ → γ → Prop} {p : Proc Op Ret ε α} {f : α → Proc Op Ret ε β} {s : σ}
    {g : γ} (h : C.Safe (fun a s g => C.Safe Q (f a) s g) p s g) : C.Safe Q (p.bind f) s g := by
  induction p generalizing s g with
  | ret a => exact h
  | throw e => exact h
  | op o k ih =>
    refine ⟨h.1, ?_⟩
    intro s' g' hrely hinv r s'' hstep
    obtain ⟨g'', hinv', hguar, hsafe⟩ := h.2 s' g' hrely hinv r s'' hstep
    exact ⟨g'', hinv', hguar, ih r hsafe⟩

theorem Safe.ensuring {Q : α → σ → γ → Prop} {p : Proc Op Ret ε α} {cleanup : Proc Op Ret ε Unit}
    {s : σ} {g : γ} (h : C.Safe (fun a s g => C.Safe (fun _ => Q a) cleanup s g) p s g) :
    C.Safe Q (p.ensuring cleanup) s g := by
  induction p generalizing s g with
  | ret a => exact Safe.bind h
  | throw e => exact h.elim
  | op o k ih =>
    refine ⟨h.1, ?_⟩
    intro s' g' hrely hinv r s'' hstep
    obtain ⟨g'', hinv', hguar, hsafe⟩ := h.2 s' g' hrely hinv r s'' hstep
    exact ⟨g'', hinv', hguar, ih r hsafe⟩

theorem Safe.returned {Q : α → σ → γ → Prop} {p : Proc Op Ret ε α} {s : σ} {g : γ}
    (h : C.Safe Q p s g) (hs : ¬ C.owns s) : ∃ a, p = .ret a ∧ Q a s g := by
  cases p with
  | ret a => exact ⟨a, rfl, h⟩
  | throw e => exact h.elim
  | op o k => exact absurd h.1 hs

theorem Safe.rely {Q : α → σ → γ → Prop} {o : Op} {k : Ret o → Proc Op Ret ε α} {s s' : σ} {g g' : γ}
    (htrans : ∀ {s g s' g' s'' g''}, C.rely s g s' g' → C.rely s' g' s'' g'' → C.rely s g s'' g'')
    (h : C.Safe Q (.op o k) s g) (hrely : C.rely s g s' g') (hs : C.owns s') :
    C.Safe Q (.op o k) s' g' :=
  ⟨hs, fun _ _ hrely' => h.2 _ _ (htrans hrely hrely')⟩

end Contract

end DigitalWallet.Lib
