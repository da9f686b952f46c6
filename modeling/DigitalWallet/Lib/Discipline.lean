import DigitalWallet.Lib.Hoare
import DigitalWallet.Lib.Run

namespace DigitalWallet.Lib

structure Discipline (Op : Type) (Ret : Op → Type) (ι : Type) where
  allows : ι → Op → Prop
  next : ι → (o : Op) → Ret o → ι

namespace Proc

variable {Op : Type} {Ret : Op → Type} {ε α β ι : Type}

/-- Every path keeps the discipline, returns with `Q` and takes at most so many
operations. -/
def Follows (D : Discipline Op Ret ι) (Q : ι → α → Prop) : Proc Op Ret ε α → ι → Nat → Prop
  | .ret a, i, _ => Q i a
  | .throw _, _, _ => True
  | .op _ _, _, 0 => False
  | .op o k, i, n + 1 => D.allows i o ∧ ∀ r, (k r).Follows D Q (D.next i o r) n

variable {D : Discipline Op Ret ι} {Q R : ι → α → Prop} {S : ι → β → Prop} {p : Proc Op Ret ε α}
  {f : α → Proc Op Ret ε β} {i : ι} {m n : Nat}

theorem Follows.mono (h : p.Follows D Q i m) (hmn : m ≤ n) (hQ : ∀ i a, Q i a → R i a) :
    p.Follows D R i n := by
  induction p generalizing i m n with
  | ret a => exact hQ i a h
  | throw e => trivial
  | op o k ih =>
    cases m with
    | zero => exact h.elim
    | succ m =>
      obtain ⟨n, rfl⟩ : ∃ n', n = n' + 1 := ⟨n - 1, by omega⟩
      exact ⟨h.1, fun r => ih r (h.2 r) (by omega)⟩

theorem Follows.weaken {allows : ι → Op → Prop} (h : p.Follows D Q i n)
    (hD : ∀ i o, D.allows i o → allows i o) : p.Follows ⟨allows, D.next⟩ Q i n := by
  induction p generalizing i n with
  | ret a => exact h
  | throw e => trivial
  | op o k ih =>
    cases n with
    | zero => exact h.elim
    | succ n => exact ⟨hD i o h.1, fun r => ih r (h.2 r)⟩

theorem Follows.all {ok : Op → Prop} (h : p.Follows D Q i n) (hD : ∀ i o, D.allows i o → ok o) :
    p.All ok := by
  induction p generalizing i n with
  | ret a => trivial
  | throw e => trivial
  | op o k ih =>
    cases n with
    | zero => exact h.elim
    | succ n => exact ⟨hD i o h.1, fun r => ih r (h.2 r)⟩

theorem Follows.bind (h : p.Follows D Q i m) (hf : ∀ i a, Q i a → (f a).Follows D S i n) :
    (p.bind f).Follows D S i (m + n) := by
  induction p generalizing i m with
  | ret a => exact (hf i a h).mono (by omega) fun _ _ h => h
  | throw e => trivial
  | op o k ih =>
    cases m with
    | zero => exact h.elim
    | succ m =>
      rw [Nat.succ_add]
      exact ⟨h.1, fun r => ih r (h.2 r)⟩

theorem Follows.ensuring {cleanup : Proc Op Ret ε Unit} (h : p.Follows D (fun _ _ => True) i m)
    (hc : ∀ i, cleanup.Follows D (fun _ _ => True) i n) :
    (p.ensuring cleanup).Follows D (fun _ _ => True) i (m + n) := by
  induction p generalizing i m with
  | ret a =>
    have h : (cleanup.bind fun _ => (.ret a : Proc Op Ret ε α)).Follows D (fun _ _ => True) i (n + 0) :=
      (hc i).bind fun _ _ _ => trivial
    exact h.mono (by omega) fun _ _ h => h
  | throw e =>
    have h : (cleanup.bind fun _ => (.throw e : Proc Op Ret ε α)).Follows D (fun _ _ => True) i (n + 0) :=
      (hc i).bind fun _ _ _ => trivial
    exact h.mono (by omega) fun _ _ h => h
  | op o k ih =>
    cases m with
    | zero => exact h.elim
    | succ m =>
      rw [Nat.succ_add]
      exact ⟨h.1, fun r => ih r (h.2 r)⟩

end Proc

section Budget

variable {σ τ : Type} {act : τ → σ → Option (τ × σ)} {step : Pool σ τ → Nat → Option (Pool σ τ)}

end Budget

end DigitalWallet.Lib
