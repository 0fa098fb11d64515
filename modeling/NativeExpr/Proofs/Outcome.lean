import NativeExpr.Error

/-!
# Outcomes of computations with state and errors

`Yields m s post fails` says of a computation started in `s` that a result and
its state satisfy `post` and an error and its state satisfy `fails`. One rule for every way
of building a computation lets proofs follow the code they are about.
-/
namespace NativeExpr

variable {ε σ α β : Type}

/-- Where a computation started in `s` ends. -/
def Yields (m : EStateM ε σ α) (s : σ) (post : α → σ → Prop) (fails : ε → σ → Prop) : Prop :=
  match m s with
  | .ok a s' => post a s'
  | .error e s' => fails e s'

namespace Yields

variable {s : σ} {fails fails' : ε → σ → Prop}

theorem of_pure {a : α} {post : α → σ → Prop} (h : post a s) :
    Yields (pure a : EStateM ε σ α) s post fails := h

theorem of_throw {e : ε} {post : α → σ → Prop} (h : fails e s) :
    Yields (throw e : EStateM ε σ α) s post fails := h

theorem of_get {post : σ → σ → Prop} (h : post s s) :
    Yields (get : EStateM ε σ σ) s post fails := h

theorem of_set {t : σ} {post : PUnit → σ → Prop} (h : post ⟨⟩ t) :
    Yields (set t : EStateM ε σ PUnit) s post fails := h

theorem of_modify {f : σ → σ} {post : PUnit → σ → Prop} (h : post ⟨⟩ (f s)) :
    Yields (modify f : EStateM ε σ PUnit) s post fails := h

theorem bind {m : EStateM ε σ α} {f : α → EStateM ε σ β} {post : β → σ → Prop}
    (h : Yields m s (fun a s' => Yields (f a) s' post fails) fails) :
    Yields (m >>= f) s post fails := by
  unfold Yields at h ⊢
  show match EStateM.bind m f s with
    | .ok a s' => post a s'
    | .error e s' => fails e s'
  unfold EStateM.bind
  cases hm : m s with
  | ok a s' => simpa only [hm] using h
  | error e s' => simpa only [hm] using h

theorem mono {m : EStateM ε σ α} {post post' : α → σ → Prop}
    (h : Yields m s post fails) (hp : ∀ a s', post a s' → post' a s')
    (hf : ∀ e s', fails e s' → fails' e s') : Yields m s post' fails' := by
  unfold Yields at h ⊢
  cases hm : m s with
  | ok a s' =>
    rw [hm] at h
    exact hp a s' h
  | error e s' =>
    rw [hm] at h
    exact hf e s' h

/-- A computation followed by another, with what is known in between. -/
theorem seq {m : EStateM ε σ α} {f : α → EStateM ε σ β} {R : α → σ → Prop}
    {post : β → σ → Prop} (h : Yields m s R fails)
    (hf : ∀ a s', R a s' → Yields (f a) s' post fails) :
    Yields (m >>= f) s post fails :=
  bind (h.mono hf fun _ _ he => he)

theorem ok {m : EStateM ε σ α} {post : α → σ → Prop} (h : Yields m s post fails) {a : α} {s' : σ}
    (hm : m s = .ok a s') : post a s' := by
  unfold Yields at h
  rwa [hm] at h

theorem error {m : EStateM ε σ α} {post : α → σ → Prop} (h : Yields m s post fails) {e : ε}
    {s' : σ} (hm : m s = .error e s') : fails e s' := by
  unfold Yields at h
  rwa [hm] at h

theorem of_except {x : Except ε α} {post : α → σ → Prop} (ok : ∀ a, x = .ok a → post a s)
    (error : ∀ e, x = .error e → fails e s) :
    Yields (liftM x : EStateM ε σ α) s post fails := by
  cases x with
  | ok a => exact ok a rfl
  | error e => exact error e rfl

theorem of_ok {x : Except ε α} {a : α} {post : α → σ → Prop} (known : x = .ok a) (h : post a s) :
    Yields (liftM x : EStateM ε σ α) s post fails := by
  subst known
  exact h

/-- A loop over a list keeps an invariant on the part still to be done. -/
theorem forM {f : α → EStateM ε σ PUnit} (inv : List α → σ → Prop)
    (step : ∀ x rest s, inv (x :: rest) s → Yields (f x) s (fun _ s' => inv rest s') fails) :
    ∀ (xs : List α) (s : σ), inv xs s → Yields (xs.forM f) s (fun _ s' => inv [] s') fails := by
  intro xs
  induction xs with
  | nil => exact fun s h => of_pure h
  | cons x rest ih => exact fun s h => seq (step x rest s h) fun _ s' h' => ih s' h'

end Yields

theorem exists_of_succeeds {m : EStateM ε σ α} {s : σ} {p : α → σ → Bool}
    (h : (match m s with | .ok x t => p x t | .error _ _ => false) = true) :
    ∃ x t, m s = .ok x t ∧ p x t = true := by
  cases hm : m s with
  | ok x t => exact ⟨x, t, rfl, by rwa [hm] at h⟩
  | error =>
    rw [hm] at h
    cases h

/-! ## Without state -/

variable {x : Except ε α} {f : α → Except ε β} {b : β} {e : ε}

theorem bind_eq_ok : x >>= f = .ok b ↔ ∃ a, x = .ok a ∧ f a = .ok b := by
  cases x with
  | error e => exact ⟨nofun, nofun⟩
  | ok a => exact ⟨fun h => ⟨a, rfl, h⟩, fun ⟨_, same, h⟩ => Except.ok.inj same ▸ h⟩

theorem bind_eq_error : x >>= f = .error e ↔ x = .error e ∨ ∃ a, x = .ok a ∧ f a = .error e := by
  cases x with
  | error e' => exact ⟨fun h => .inl (congrArg Except.error (Except.error.inj h)),
      fun h => h.elim (fun same => congrArg Except.error (Except.error.inj same)) nofun⟩
  | ok a => exact ⟨fun h => .inr ⟨a, rfl, h⟩,
      fun h => h.elim nofun fun ⟨_, same, h⟩ => Except.ok.inj same ▸ h⟩

end NativeExpr
