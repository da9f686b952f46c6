import DigitalWallet.Lib.Proc

namespace DigitalWallet.Lib.Proc

variable {Op : Type} {Ret : Op → Type} {ε α β σ : Type}

def All (ok : Op → Prop) : Proc Op Ret ε α → Prop
  | .ret _ => True
  | .throw _ => True
  | .op o k => ok o ∧ ∀ r, (k r).All ok

section Wp

variable (perform : (o : Op) → σ → Option (Ret o × σ))

/-- From `s` the run keeps `I` in every state on its way, and leaves with `Q`. -/
def Wp (I : σ → Prop) (Q : Exit ε α → σ → Prop) : Proc Op Ret ε α → σ → Prop
  | .ret a, s => I s ∧ Q (.returned a) s
  | .throw e, s => I s ∧ Q (.threw e) s
  | .op o k, s => I s ∧ (∀ r s', perform o s = some (r, s') → (k r).Wp I Q s') ∧
      (perform o s = none → Q .blocked s)

variable {perform} {I : σ → Prop}

theorem Wp.mono {J : σ → Prop} {Q R : Exit ε α → σ → Prop} {p : Proc Op Ret ε α} {s : σ}
    (h : p.Wp perform I Q s) (hI : ∀ s, I s → J s) (hQ : ∀ e s, Q e s → R e s) :
    p.Wp perform J R s := by
  induction p generalizing s with
  | ret a => exact ⟨hI s h.1, hQ _ s h.2⟩
  | throw e => exact ⟨hI s h.1, hQ _ s h.2⟩
  | op o k ih =>
    exact ⟨hI s h.1, fun r s' ho => ih r (h.2.1 r s' ho), fun ho => hQ _ s (h.2.2 ho)⟩

theorem Wp.bind {R : σ → Prop} {p : Proc Op Ret ε α} {f : α → Proc Op Ret ε β} {s : σ}
    (h : p.Wp perform I (fun _ => R) s)
    (hf : ∀ a s, I s → R s → (f a).Wp perform I (fun _ => R) s) :
    (p.bind f).Wp perform I (fun _ => R) s := by
  induction p generalizing s with
  | ret a => exact hf a s h.1 h.2
  | throw e => exact h
  | op o k ih => exact ⟨h.1, fun r s' hs => ih r (h.2.1 r s' hs), h.2.2⟩

theorem Wp.ensuring {R : σ → Prop} {p : Proc Op Ret ε α} {cleanup : Proc Op Ret ε Unit} {s : σ}
    (h : p.Wp perform I (fun _ => R) s)
    (hc : ∀ s, I s → R s → cleanup.Wp perform I (fun _ => R) s) :
    (p.ensuring cleanup).Wp perform I (fun _ => R) s := by
  induction p generalizing s with
  | ret a => exact (hc s h.1 h.2).bind fun _ _ hi hr => ⟨hi, hr⟩
  | throw e => exact (hc s h.1 h.2).bind fun _ _ hi hr => ⟨hi, hr⟩
  | op o k ih => exact ⟨h.1, fun r s' hs => ih r (h.2.1 r s' hs), h.2.2⟩

theorem All.wp {ok : Op → Prop} {p : Proc Op Ret ε α} {s : σ} (h : p.All ok)
    (hstep : ∀ {o s r s'}, ok o → I s → perform o s = some (r, s') → I s') (hs : I s) :
    p.Wp perform I (fun _ => I) s := by
  induction p generalizing s with
  | ret a => exact ⟨hs, hs⟩
  | throw e => exact ⟨hs, hs⟩
  | op o k ih => exact ⟨hs, fun r s' ho => ih r (h.2 r) (hstep h.1 hs ho), fun _ => hs⟩

end Wp

end DigitalWallet.Lib.Proc
