import Linkage.Visit.Chain
import Linkage.Proofs.Chain

/-!
Computations on a part of the state, and computations that log what they are given. With them a sink and the receivers
before it work side by side, and what each of them has been given can be told.
-/
namespace Linkage

/-- A state with a log. -/
structure Logged (σ ι : Type) where
  state : σ
  log : List ι := []

namespace Run

variable {σ τ ε α β ι : Type}

def onFirst (x : Run σ ε α) : Run (σ × τ) ε α := fun p => ((x p.1).1, ((x p.1).2, p.2))

def onSecond (x : Run τ ε α) : Run (σ × τ) ε α := fun p => ((x p.2).1, (p.1, (x p.2).2))

/-- Logs each argument, whether the computation fails or not. -/
def logged (f : ι → Run σ ε α) : ι → Run (Logged σ ι) ε α := fun i p =>
  ((f i p.state).1, ⟨(f i p.state).2, p.log ++ [i]⟩)

theorem onFirst_bind (x : Run σ ε α) (f : α → Run σ ε β) :
    (onFirst (x >>= f) : Run (σ × τ) ε β) = onFirst x >>= fun a => onFirst (f a) := by
  funext p
  rcases h : x p.1 with ⟨e | a, s'⟩ <;> simp [onFirst, bind_apply, h]

/-- The log only grows. -/
def Grows (x : Run (Logged σ ι) ε α) : Prop := ∀ p, p.log <+: (x p).2.log

namespace Grows

theorem pure (a : α) : Grows (Pure.pure a : Run (Logged σ ι) ε α) := fun p => List.prefix_refl p.log

theorem throw (e : ε) : Grows (MonadExcept.throw e : Run (Logged σ ι) ε α) := fun p => List.prefix_refl p.log

theorem bind {x : Run (Logged σ ι) ε α} {f : α → Run (Logged σ ι) ε β} (hx : Grows x) (hf : ∀ a, Grows (f a)) :
    Grows (x >>= f) := by
  intro p
  have hp := hx p
  rcases h : x p with ⟨e | a, q⟩ <;> rw [h] at hp
  · rw [bind_error h]
    exact hp
  · rw [bind_ok h]
    exact hp.trans (hf a q)

theorem logged (f : ι → Run σ ε α) (i : ι) : Grows (logged f i) := fun p => List.prefix_append p.log [i]

end Grows

/-- On the first part of the state a computation does what another one does on the whole of it. -/
def Shadows (R : α → β → Prop) (x : Run (σ × τ) ε α) (y : Run σ ε β) : Prop :=
  ∀ s t, (∃ a b s' t', x (s, t) = (.ok a, (s', t')) ∧ y s = (.ok b, s') ∧ R a b) ∨
    ∃ e s' t', x (s, t) = (.error e, (s', t')) ∧ y s = (.error e, s')

namespace Shadows

variable {γ δ : Type} {R : α → β → Prop} {S : γ → δ → Prop}

theorem pure {a : α} {b : β} (h : R a b) : Shadows R (Pure.pure a : Run (σ × τ) ε α) (Pure.pure b) :=
  fun s t => .inl ⟨a, b, s, t, rfl, rfl, h⟩

theorem onFirst (x : Run σ ε α) : Shadows Eq (Run.onFirst x : Run (σ × τ) ε α) x := by
  intro s t
  rcases h : x s with ⟨e | a, s'⟩
  · exact .inr ⟨e, s', t, by simp [Run.onFirst, h], rfl⟩
  · exact .inl ⟨a, a, s', t, by simp [Run.onFirst, h], rfl, rfl⟩

theorem bind {x : Run (σ × τ) ε α} {y : Run σ ε β} {f : α → Run (σ × τ) ε γ} {g : β → Run σ ε δ} (hx : Shadows R x y)
    (hf : ∀ a b, R a b → Shadows S (f a) (g b)) : Shadows S (x >>= f) (y >>= g) := by
  intro s t
  obtain ⟨a, b, s₁, t₁, h, h', hab⟩ | ⟨e, s₁, t₁, h, h'⟩ := hx s t
  · rw [bind_ok h, bind_ok h']
    exact hf a b hab s₁ t₁
  · rw [bind_error h, bind_error h']
    exact .inr ⟨e, s₁, t₁, rfl, rfl⟩

/-- What changes only the other part of the state does not show. -/
theorem aside {x : Run (σ × τ) ε α} {f : α → Run (σ × τ) ε γ} {y : Run σ ε δ}
    (hx : ∀ s t, ∃ a t', x (s, t) = (.ok a, (s, t'))) (hf : ∀ a, Shadows S (f a) y) : Shadows S (x >>= f) y := by
  intro s t
  obtain ⟨a, t', h⟩ := hx s t
  rw [bind_ok h]
  exact hf a s t'

theorem weaken {S : α → β → Prop} {x : Run (σ × τ) ε α} {y : Run σ ε β} (hx : Shadows R x y)
    (h : ∀ a b, R a b → S a b) : Shadows S x y := by
  intro s t
  obtain ⟨a, b, s₁, t₁, h₁, h₂, hab⟩ | he := hx s t
  · exact .inl ⟨a, b, s₁, t₁, h₁, h₂, h a b hab⟩
  · exact .inr he

end Shadows

end Run

variable {σ τ ε : Type}

/-- The sink on the first part of the state. -/
def Sink.beside (sink : Sink σ ε) : Sink (σ × τ) ε := fun event => Run.onFirst (sink event)

theorem Sink.tell_beside (sink : Sink σ ε) (event : Event) :
    (sink.beside : Sink (σ × τ) ε).tell event = Run.onFirst (sink.tell event) := by
  rw [Sink.tell, Sink.tell, Run.onFirst_bind]
  rfl

end Linkage
