/-!
# What computations give

The lexer and the parser are computations that may fail, and the parser carries a
state. `Gives I E x Q` says of such a computation that whatever it gives satisfies
`Q`, as long as the state it starts from satisfies `I`, that `I` holds of the state
it leaves, and that it fails for one of the reasons `E`, if it does.
-/

namespace BarScript

variable {σ ε α β : Type}

/-- How a computation ends: with a result that satisfies `Q`, or for one of the reasons
`E`. -/
def Except.Ends (E : ε → Prop) (Q : α → Prop) : Except ε α → Prop
  | .ok a => Q a
  | .error e => E e

/-- What a computation gives from states of which something is known, if it
gives anything, and that the same is known afterwards. -/
def Gives (I : σ → Prop) (E : ε → Prop) (x : StateT σ (Except ε) α) (Q : α → Prop) : Prop :=
  ∀ s, I s → Except.Ends E (fun (a, s') => Q a ∧ I s') (x s)

variable {I : σ → Prop} {E : ε → Prop} {x : StateT σ (Except ε) α} {f : α → StateT σ (Except ε) β}
  {Q : α → Prop} {R : β → Prop}

theorem Except.Ends.bind {x : Except ε α} {f : α → Except ε β} (hx : Except.Ends E Q x)
    (hf : ∀ a, Q a → Except.Ends E R (f a)) : Except.Ends E R (x >>= f) := by
  cases x with
  | error e => exact hx
  | ok a => exact hf a hx

theorem Except.Ends.imp_error {E' : ε → Prop} {x : Except ε α} (hx : Except.Ends E Q x)
    (h : ∀ e, E e → E' e) : Except.Ends E' Q x := by
  cases x with
  | error e => exact h e hx
  | ok a => exact hx

theorem Except.of_bind_eq_ok {x : Except ε α} {f : α → Except ε β} {b : β}
    (h : (x >>= f) = .ok b) : ∃ a, x = .ok a ∧ f a = .ok b := by
  cases x with
  | error e => cases h
  | ok a => exact ⟨a, rfl, h⟩

/-- Whether a computation gives something that passes a test. -/
def Except.gives (test : α → Bool) : Except ε α → Bool
  | .ok a => test a
  | .error _ => false

theorem Except.exists_of_gives {x : Except ε α} {test : α → Bool} (h : Except.gives test x = true) :
    ∃ a, x = .ok a ∧ test a = true := by
  cases x with
  | error e => cases h
  | ok a => exact ⟨a, rfl, h⟩

theorem StateT.bind_ok (h : x s = .ok (a, s')) : (x >>= f) s = f a s' := by
  show (x s >>= fun r => f r.1 r.2) = _
  rw [h]
  rfl

theorem StateT.bind_eq_ok {s s'' : σ} {b : β} (h : (x >>= f) s = .ok (b, s'')) :
    ∃ a s', x s = .ok (a, s') ∧ f a s' = .ok (b, s'') := by
  have hbind : (x s >>= fun r => f r.1 r.2) = .ok (b, s'') := h
  obtain ⟨⟨a, s'⟩, hx, hf⟩ := Except.of_bind_eq_ok hbind
  exact ⟨a, s', hx, hf⟩

theorem gives_pure (h : Q a) : Gives I E (pure a : StateT σ (Except ε) α) Q :=
  fun _ hs => ⟨h, hs⟩

theorem gives_throw (h : E e) : Gives I E (throw e : StateT σ (Except ε) α) Q :=
  fun _ _ => h

theorem gives_get : Gives I E (get : StateT σ (Except ε) σ) I :=
  fun _ hs => ⟨hs, hs⟩

namespace Gives

theorem bind (hx : Gives I E x Q) (hf : ∀ a, Q a → Gives I E (f a) R) : Gives I E (x >>= f) R :=
  fun s hs => Except.Ends.bind (hx s hs) fun (a, s') h => hf a h.1 s' h.2

theorem map (hx : Gives I E x Q) (hg : ∀ a, Q a → R (g a)) : Gives I E (g <$> x) R := by
  rw [map_eq_pure_bind]
  exact hx.bind fun a ha => gives_pure (hg a ha)

end Gives

end BarScript
