import MoonWiki.Lua.Run

/-! Pre- and postconditions of computations that may stop with an error. -/
namespace Lua.Run

variable {σ ε α β : Type} {P P' : σ → Prop} {Q Q' : α → σ → Prop} {R : β → σ → Prop}
  {E E' : ε → σ → Prop} {x : Run σ ε α} {f : α → Run σ ε β}

/-- From a state with `P` the computation returns with `Q` or stops with `E`. -/
def Triple (P : σ → Prop) (x : Run σ ε α) (Q : α → σ → Prop) (E : ε → σ → Prop) : Prop :=
  ∀ s, P s → (∃ a s', x s = (.ok a, s') ∧ Q a s') ∨ ∃ e s', x s = (.error e, s') ∧ E e s'

namespace Triple

theorem pure (a : α) : Triple (Q a) (Pure.pure a : Run σ ε α) Q E := by
  intro s hs
  exact .inl ⟨a, s, rfl, hs⟩

theorem error (e : ε) : Triple (E e) (Run.error e : Run σ ε α) Q E := by
  intro s hs
  exact .inr ⟨e, s, rfl, hs⟩

theorem modify (g : σ → σ) {R : Unit → σ → Prop} :
    Triple (fun s => R () (g s)) (Run.modify g : Run σ ε Unit) R E := by
  intro s hs
  exact .inl ⟨(), g s, rfl, hs⟩

theorem bind (hx : Triple P x Q E) (hf : ∀ a, Triple (Q a) (f a) R E) :
    Triple P (x >>= f) R E := by
  intro s hs
  rcases hx s hs with ⟨a, s', hrun, hs'⟩ | ⟨e, s', hrun, hs'⟩
  · rw [Run.bind_ok hrun]
    exact hf a s' hs'
  · rw [Run.bind_error hrun]
    exact .inr ⟨e, s', rfl, hs'⟩

/-- What is read of the state is that of the state before. -/
theorem get_bind {f : σ → Run σ ε β} (hf : ∀ s, P s → Triple (· = s) (f s) R E) :
    Triple P (Run.get >>= f) R E := by
  intro s hs
  exact hf s hs s rfl

theorem mono (h : Triple P x Q E) (hP : ∀ s, P' s → P s) (hQ : ∀ a s, Q a s → Q' a s)
    (hE : ∀ e s, E e s → E' e s) : Triple P' x Q' E' := by
  intro s hs
  rcases h s (hP s hs) with ⟨a, s', hrun, hs'⟩ | ⟨e, s', hrun, hs'⟩
  · exact .inl ⟨a, s', hrun, hQ a s' hs'⟩
  · exact .inr ⟨e, s', hrun, hE e s' hs'⟩

theorem pre (h : Triple P x Q E) (hP : ∀ s, P' s → P s) : Triple P' x Q E :=
  h.mono hP (fun _ _ hs => hs) fun _ _ hs => hs

theorem and_pre {c : Prop} (h : c → Triple P x Q E) : Triple (fun s => c ∧ P s) x Q E := by
  intro s hs
  exact h hs.1 s hs.2

theorem exists_pre {ι : Sort*} {S : ι → σ → Prop} (h : ∀ i, Triple (S i) x Q E) :
    Triple (fun s => ∃ i, S i s) x Q E := by
  intro s hs
  obtain ⟨i, hs⟩ := hs
  exact h i s hs

theorem ite {c : Prop} [Decidable c] {y : Run σ ε α} (hx : c → Triple P x Q E)
    (hy : ¬ c → Triple P y Q E) : Triple P (if c then x else y) Q E := by
  split_ifs with h
  · exact hx h
  · exact hy h

end Triple
end Lua.Run
