import Mathlib.Algebra.Group.Defs
import Mathlib.Data.Finmap

namespace DigitalWallet.Lib

variable {κ β M : Type} [DecidableEq κ] {m m' m'' : Finmap fun _ : κ => β}

def Moved (act : M → β → β) (δ : κ → M) (m m' : Finmap fun _ : κ => β) : Prop :=
  ∀ k, m'.lookup k = (m.lookup k).map (act (δ k))

namespace Moved

variable {act : M → β → β} {δ δ' : κ → M}

theorem unique (h : Moved act δ m m') (h' : Moved act δ m m'') : m' = m'' := by
  apply Finmap.ext_lookup
  intro k
  rw [h k, h' k]

variable [AddMonoid M]

theorem refl (hact : ∀ k b, m.lookup k = some b → act 0 b = b) : Moved act (fun _ => 0) m m := by
  intro k
  cases hk : m.lookup k with
  | none => rfl
  | some b => simp [hact k b hk]

theorem trans (hact : ∀ d d' b, act d' (act d b) = act (d + d') b) (h : Moved act δ m m')
    (h' : Moved act δ' m' m'') : Moved act (fun k => δ k + δ' k) m m'' := by
  intro k
  rw [h' k, h k, Option.map_map]
  cases m.lookup k with
  | none => rfl
  | some b => simp [hact]

end Moved

end DigitalWallet.Lib
