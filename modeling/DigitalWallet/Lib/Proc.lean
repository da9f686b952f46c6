import Mathlib.Data.Option.Basic

/-! Programs as trees of atomic operations.  One tree has two readings: run to
its end without interruption, or advanced one operation at a time among other
threads that share the state. -/

namespace DigitalWallet.Lib

inductive Proc (Op : Type) (Ret : Op → Type) (ε α : Type) : Type
  | ret : α → Proc Op Ret ε α
  | throw : ε → Proc Op Ret ε α
  | op : (o : Op) → (Ret o → Proc Op Ret ε α) → Proc Op Ret ε α

inductive Exit (ε α : Type) : Type
  | returned (a : α)
  | threw (e : ε)
  | blocked
  deriving DecidableEq

namespace Proc

variable {Op : Type} {Ret : Op → Type} {ε α β γ σ : Type}

def bind : Proc Op Ret ε α → (α → Proc Op Ret ε β) → Proc Op Ret ε β
  | .ret a, f => f a
  | .throw e, _ => .throw e
  | .op o k, f => .op o (fun r => (k r).bind f)

instance : Monad (Proc Op Ret ε) where
  pure := .ret
  bind := bind

def ensuring : Proc Op Ret ε α → Proc Op Ret ε Unit → Proc Op Ret ε α
  | .ret a, cleanup => cleanup.bind (fun _ => .ret a)
  | .throw e, cleanup => cleanup.bind (fun _ => .throw e)
  | .op o k, cleanup => .op o (fun r => (k r).ensuring cleanup)

def finished : Proc Op Ret ε α → Bool
  | .op _ _ => false
  | _ => true

@[simp] theorem pure_eq (a : α) : (pure a : Proc Op Ret ε α) = .ret a := rfl

@[simp] theorem bind_eq (p : Proc Op Ret ε α) (f : α → Proc Op Ret ε β) :
    p >>= f = p.bind f := rfl

@[simp] theorem ret_bind (a : α) (f : α → Proc Op Ret ε β) :
    (ret a : Proc Op Ret ε α).bind f = f a := rfl

@[simp] theorem throw_bind (e : ε) (f : α → Proc Op Ret ε β) :
    (throw e : Proc Op Ret ε α).bind f = .throw e := rfl

@[simp] theorem op_bind (o : Op) (k : Ret o → Proc Op Ret ε α) (f : α → Proc Op Ret ε β) :
    (op o k).bind f = .op o (fun r => (k r).bind f) := rfl

section Exec

variable (perform : (o : Op) → σ → Option (Ret o × σ))

/-- The uninterrupted run.  An operation that is not enabled blocks it, and the
state it has reached by then is kept. -/
def exec : Proc Op Ret ε α → σ → Exit ε α × σ
  | .ret a, s => (.returned a, s)
  | .throw e, s => (.threw e, s)
  | .op o k, s =>
    match perform o s with
    | some (r, s') => (k r).exec s'
    | none => (.blocked, s)

def advance : Proc Op Ret ε α → σ → Option (Proc Op Ret ε α × σ)
  | .op o k, s => (perform o s).map fun (r, s') => (k r, s')
  | _, _ => none

@[simp] theorem exec_ret (a : α) (s : σ) :
    (ret a : Proc Op Ret ε α).exec perform s = (.returned a, s) := rfl

@[simp] theorem exec_throw (e : ε) (s : σ) :
    (throw e : Proc Op Ret ε α).exec perform s = (.threw e, s) := rfl

variable {perform}

theorem exec_op {o : Op} {k : Ret o → Proc Op Ret ε α} {s s' : σ} {r : Ret o}
    (h : perform o s = some (r, s')) : (op o k).exec perform s = (k r).exec perform s' := by
  simp only [exec, h]

theorem exec_op_blocked {o : Op} {k : Ret o → Proc Op Ret ε α} {s : σ}
    (h : perform o s = none) : (op o k).exec perform s = (.blocked, s) := by
  simp only [exec, h]

theorem exec_bind (p : Proc Op Ret ε α) (f : α → Proc Op Ret ε β) (s : σ) :
    (p.bind f).exec perform s =
      match p.exec perform s with
      | (.returned a, s') => (f a).exec perform s'
      | (.threw e, s') => (.threw e, s')
      | (.blocked, s') => (.blocked, s') := by
  induction p generalizing s with
  | ret a => rfl
  | throw e => rfl
  | op o k ih =>
    simp only [op_bind]
    cases h : perform o s with
    | none => simp only [exec_op_blocked h]
    | some rs =>
      obtain ⟨r, s'⟩ := rs
      rw [exec_op h, exec_op h, ih]

theorem exec_bind_returned {p : Proc Op Ret ε α} {s s' : σ} {a : α}
    (h : p.exec perform s = (.returned a, s')) (f : α → Proc Op Ret ε β) :
    (p.bind f).exec perform s = (f a).exec perform s' := by
  rw [exec_bind, h]

theorem exec_ensuring {cleanup : Proc Op Ret ε Unit} (clean : σ → σ)
    (hc : ∀ s, cleanup.exec perform s = (.returned (), clean s))
    (p : Proc Op Ret ε α) (s : σ) :
    (p.ensuring cleanup).exec perform s =
      match p.exec perform s with
      | (.blocked, s') => (.blocked, s')
      | (e, s') => (e, clean s') := by
  induction p generalizing s with
  | ret a => rw [ensuring, exec_bind_returned (hc s)]; rfl
  | throw e => rw [ensuring, exec_bind_returned (hc s)]; rfl
  | op o k ih =>
    simp only [ensuring]
    cases h : perform o s with
    | none => simp only [exec_op_blocked h]
    | some rs =>
      obtain ⟨r, s'⟩ := rs
      rw [exec_op h, exec_op h, ih]

end Exec

end Proc

end DigitalWallet.Lib
