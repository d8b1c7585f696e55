import Linkage.Run

/-! How computations that may fail act: on their value alone, and on a state that failures keep. -/
namespace Linkage

section

variable {ε α β : Type}

theorem bind_eq_ok_iff {x : Except ε α} {f : α → Except ε β} {b : β} :
    (x >>= f) = .ok b ↔ ∃ a, x = .ok a ∧ f a = .ok b := by
  cases x <;> simp [bind, Except.bind]

theorem ok_bind (a : α) (f : α → Except ε β) : (Except.ok a >>= f) = f a := rfl

/-- A list is mapped to a list of values exactly if each of its items is mapped to the value at its place. -/
theorem mapM_eq_ok_iff {f : α → Except ε β} {as : List α} {bs : List β} :
    as.mapM f = .ok bs ↔ as.length = bs.length ∧ ∀ p ∈ as.zip bs, f p.1 = .ok p.2 := by
  induction as generalizing bs with
  | nil => cases bs <;> simp [pure, Except.pure]
  | cons a as ih =>
    rw [List.mapM_cons]
    cases bs with
    | nil => cases f a <;> cases as.mapM f <;> simp [bind, Except.bind, pure, Except.pure]
    | cons b bs =>
      have h := @ih bs
      simp only [List.length_cons, Nat.add_right_cancel_iff, List.zip_cons_cons, List.mem_cons, forall_eq_or_imp]
      rw [and_left_comm, ← h]
      cases f a <;> cases as.mapM f <;> simp [bind, Except.bind, pure, Except.pure]

theorem exists_eq_ok_of_mapM {f : α → Except ε β} {as : List α} {bs : List β} (h : as.mapM f = .ok bs) :
    (∀ a ∈ as, ∃ b ∈ bs, f a = .ok b) ∧ ∀ b ∈ bs, ∃ a ∈ as, f a = .ok b := by
  induction as generalizing bs with
  | nil =>
    obtain rfl : [] = bs := Except.ok.inj h
    simp
  | cons a as ih =>
    rw [List.mapM_cons, bind_eq_ok_iff] at h
    obtain ⟨b, hb, h⟩ := h
    obtain ⟨bs', hbs', h⟩ := bind_eq_ok_iff.mp h
    obtain rfl : b :: bs' = bs := Except.ok.inj h
    obtain ⟨hleft, hright⟩ := ih hbs'
    constructor
    · intro x hx
      obtain rfl | hx := List.mem_cons.mp hx
      · exact ⟨b, by simp, hb⟩
      · obtain ⟨y, hy, hxy⟩ := hleft x hx
        exact ⟨y, by simp [hy], hxy⟩
    · intro y hy
      obtain rfl | hy := List.mem_cons.mp hy
      · exact ⟨a, by simp, hb⟩
      · obtain ⟨x, hx, hxy⟩ := hright y hy
        exact ⟨x, by simp [hx], hxy⟩

theorem exists_mapM_eq_ok {f : α → Except ε β} {as : List α} (h : ∀ a ∈ as, ∃ b, f a = .ok b) :
    ∃ bs, as.mapM f = .ok bs := by
  induction as with
  | nil => exact ⟨[], rfl⟩
  | cons a as ih =>
    obtain ⟨b, hb⟩ := h a List.mem_cons_self
    obtain ⟨bs, hbs⟩ := ih fun a ha => h a (List.mem_cons_of_mem _ ha)
    exact ⟨b :: bs, by rw [List.mapM_cons, hb, ok_bind, hbs]; rfl⟩

theorem filterAuxM_eq_ok {f : α → Except ε Bool} {as acc r : List α} (h : List.filterAuxM f as acc = .ok r) :
    ∃ bs : List α, r = bs.reverse ++ acc ∧ bs.Sublist as ∧ ∀ a, a ∈ bs ↔ a ∈ as ∧ f a = .ok true := by
  induction as generalizing acc with
  | nil =>
    obtain rfl : acc = r := Except.ok.inj h
    exact ⟨[], by simp⟩
  | cons a as ih =>
    rw [List.filterAuxM, bind_eq_ok_iff] at h
    obtain ⟨b, hb, h⟩ := h
    obtain ⟨bs, rfl, hsub, hmem⟩ := ih h
    cases b with
    | false =>
      refine ⟨bs, rfl, hsub.cons a, fun x => ?_⟩
      rw [hmem, List.mem_cons]
      grind
    | true =>
      refine ⟨a :: bs, by simp, hsub.cons_cons a, fun x => ?_⟩
      rw [List.mem_cons, hmem, List.mem_cons]
      grind

/-- What is kept of a list is what is told to be kept. -/
theorem filterM_eq_ok {f : α → Except ε Bool} {as bs : List α} (h : as.filterM f = .ok bs) :
    bs.Sublist as ∧ ∀ a, a ∈ bs ↔ a ∈ as ∧ f a = .ok true := by
  rw [List.filterM, bind_eq_ok_iff] at h
  obtain ⟨r, hr, h⟩ := h
  obtain ⟨kept, rfl, hsub, hmem⟩ := filterAuxM_eq_ok hr
  obtain rfl : kept = bs := by simpa using Except.ok.inj h
  exact ⟨hsub, hmem⟩

theorem exists_filterM_eq_ok {f : α → Except ε Bool} {as : List α} (h : ∀ a ∈ as, ∃ b, f a = .ok b) :
    ∃ bs, as.filterM f = .ok bs := by
  have haux (acc : List α) : ∃ r, List.filterAuxM f as acc = .ok r := by
    induction as generalizing acc with
    | nil => exact ⟨acc, rfl⟩
    | cons a as ih =>
      obtain ⟨b, hb⟩ := h a List.mem_cons_self
      obtain ⟨r, hr⟩ := ih (fun a ha => h a (List.mem_cons_of_mem _ ha)) (bif b then a :: acc else acc)
      exact ⟨r, by rw [List.filterAuxM, hb, ok_bind, hr]⟩
  obtain ⟨r, hr⟩ := haux []
  exact ⟨r.reverse, by rw [List.filterM, hr]; rfl⟩

theorem eq_map_of_mapM {f : α → Except ε β} {as : List α} {bs : List β} (h : as.mapM f = .ok bs) (other : β) :
    bs = as.map fun a => (f a).toOption.getD other := by
  induction as generalizing bs with
  | nil => exact (Except.ok.inj h).symm
  | cons a as ih =>
    rw [List.mapM_cons, bind_eq_ok_iff] at h
    obtain ⟨b, hb, h⟩ := h
    obtain ⟨bs', hbs', h⟩ := bind_eq_ok_iff.mp h
    obtain rfl : b :: bs' = bs := Except.ok.inj h
    rw [List.map_cons, ← ih hbs', hb]
    rfl

end

namespace Run

variable {σ ε α β : Type}

@[simp] theorem pure_apply (a : α) (s : σ) : (pure a : Run σ ε α) s = (.ok a, s) := rfl

@[simp] theorem throw_apply (e : ε) (s : σ) : (throw e : Run σ ε α) s = (.error e, s) := rfl

@[simp] theorem get_apply (s : σ) : (get : Run σ ε σ) s = (.ok s, s) := rfl

theorem lift_ok_bind (a : α) (f : α → Run σ ε β) : ((liftM (Except.ok a : Except ε α) : Run σ ε α) >>= f) = f a := rfl

theorem bind_apply (x : Run σ ε α) (f : α → Run σ ε β) (s : σ) :
    (x >>= f) s = match x s with
      | (.ok a, s') => f a s'
      | (.error e, s') => (.error e, s') := by
  change ExceptT.bindCont f (x s).1 (x s).2 = _
  rcases x s with ⟨a | a, s'⟩ <;> rfl

theorem bind_ok {x : Run σ ε α} {f : α → Run σ ε β} {a : α} {s s' : σ} (h : x s = (.ok a, s')) :
    (x >>= f) s = f a s' := by
  rw [bind_apply, h]

theorem bind_error {x : Run σ ε α} {f : α → Run σ ε β} {e : ε} {s s' : σ} (h : x s = (.error e, s')) :
    (x >>= f) s = (.error e, s') := by
  rw [bind_apply, h]

theorem bind_eq_ok {x : Run σ ε α} {f : α → Run σ ε β} {b : β} {s s' : σ} (h : (x >>= f) s = (.ok b, s')) :
    ∃ a s₁, x s = (.ok a, s₁) ∧ f a s₁ = (.ok b, s') := by
  rcases hx : x s with ⟨e | a, s₁⟩
  · cases (bind_error hx).symm.trans h
  · exact ⟨a, s₁, rfl, (bind_ok hx).symm.trans h⟩

/-- On the states with `I` a computation gives this outcome and keeps `I`, whatever else it does to the state. -/
def Yields (I : σ → Prop) (x : Run σ ε α) (r : Except ε α) : Prop := ∀ s, I s → ∃ s', x s = (r, s') ∧ I s'

variable {I : σ → Prop}

theorem yields_lift (r : Except ε α) : Yields I (liftM r : Run σ ε α) r := fun s hs => ⟨s, rfl, hs⟩

theorem yields_pure (a : α) : Yields I (pure a : Run σ ε α) (.ok a) := fun s hs => ⟨s, rfl, hs⟩

theorem yields_throw (e : ε) : Yields I (throw e : Run σ ε α) (.error e) := fun s hs => ⟨s, rfl, hs⟩

theorem Yields.bind {x : Run σ ε α} {r : Except ε α} {f : α → Run σ ε β} {g : α → Except ε β} (hx : Yields I x r)
    (hf : ∀ a, r = .ok a → Yields I (f a) (g a)) : Yields I (x >>= f) (r >>= g) := by
  intro s hs
  obtain ⟨s', h, hs'⟩ := hx s hs
  cases r with
  | error e => exact ⟨s', bind_error h, hs'⟩
  | ok a =>
    rw [bind_ok h]
    exact hf a rfl s' hs'

theorem Yields.bind_ok {x : Run σ ε α} {f : α → Run σ ε β} {a : α} {r : Except ε β} (hx : Yields I x (.ok a))
    (hf : Yields I (f a) r) : Yields I (x >>= f) r := by
  intro s hs
  obtain ⟨s', h, hs'⟩ := hx s hs
  rw [Run.bind_ok h]
  exact hf s' hs'

theorem Yields.mapM {f : α → Run σ ε β} {g : α → Except ε β} {as : List α} (hf : ∀ a ∈ as, Yields I (f a) (g a)) :
    Yields I (as.mapM f) (as.mapM g) := by
  induction as with
  | nil => exact yields_pure []
  | cons a as ih =>
    rw [List.mapM_cons, List.mapM_cons]
    refine (hf a (by simp)).bind fun b _ => (ih fun a ha => hf a (by simp [ha])).bind fun bs _ => ?_
    exact yields_pure (b :: bs)

/-- Two computations end alike on every state: with related values or with the same error, in the same state. -/
def Agrees (R : α → β → Prop) (x : Run σ ε α) (y : Run σ ε β) : Prop :=
  ∀ s, (∃ a b s', x s = (.ok a, s') ∧ y s = (.ok b, s') ∧ R a b) ∨ ∃ e s', x s = (.error e, s') ∧ y s = (.error e, s')

namespace Agrees

variable {γ δ : Type} {R : α → β → Prop} {S : γ → δ → Prop}

theorem refl (x : Run σ ε α) : Agrees Eq x x := by
  intro s
  rcases h : x s with ⟨e | a, s'⟩
  · exact .inr ⟨e, s', rfl, rfl⟩
  · exact .inl ⟨a, a, s', rfl, rfl, rfl⟩

theorem pure {a : α} {b : β} (h : R a b) : Agrees R (Pure.pure a : Run σ ε α) (Pure.pure b) :=
  fun s => .inl ⟨a, b, s, rfl, rfl, h⟩

theorem throw (e : ε) : Agrees R (MonadExcept.throw e : Run σ ε α) (MonadExcept.throw e) :=
  fun s => .inr ⟨e, s, rfl, rfl⟩

theorem bind {x : Run σ ε α} {y : Run σ ε β} {f : α → Run σ ε γ} {g : β → Run σ ε δ} (hx : Agrees R x y)
    (hf : ∀ a b, R a b → Agrees S (f a) (g b)) : Agrees S (x >>= f) (y >>= g) := by
  intro s
  obtain ⟨a, b, s₁, h, h', hab⟩ | ⟨e, s₁, h, h'⟩ := hx s
  · rw [bind_ok h, bind_ok h']
    exact hf a b hab s₁
  · rw [bind_error h, bind_error h']
    exact .inr ⟨e, s₁, rfl, rfl⟩

theorem weaken {S : α → β → Prop} {x : Run σ ε α} {y : Run σ ε β} (hx : Agrees R x y) (h : ∀ a b, R a b → S a b) :
    Agrees S x y := by
  intro s
  obtain ⟨a, b, s₁, h₁, h₂, hab⟩ | he := hx s
  · exact .inl ⟨a, b, s₁, h₁, h₂, h a b hab⟩
  · exact .inr he

/-- What agreeing computations do, their values apart, is the same. -/
theorem eq {x : Run σ ε α} {y : Run σ ε β} (h : Agrees R x y) (s : σ) :
    ((x s).1.map fun _ => (), (x s).2) = ((y s).1.map fun _ => (), (y s).2) := by
  obtain ⟨a, b, s₁, h₁, h₂, -⟩ | ⟨e, s₁, h₁, h₂⟩ := h s
  · rw [h₁, h₂]; rfl
  · rw [h₁, h₂]; rfl

end Agrees

end Run
end Linkage
