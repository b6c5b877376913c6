import Mathlib.Data.List.Nodup
import Mathlib.GroupTheory.Perm.Basic
import Mathlib.Logic.Equiv.Basic

/-! Rearranging a range of places of an array, and orders on it. -/
namespace Ranges

variable {α : Type*} {l u i j : Nat} {f g h : Nat → α}

/-- `g` is `f` with the places from `l` to `u` rearranged. -/
def Rearranged (l u : Nat) (f g : Nat → α) : Prop :=
  ∃ σ : Equiv.Perm Nat, g = f ∘ σ ∧ ∀ k, k < l ∨ u < k → σ k = k

theorem Rearranged.refl (l u : Nat) (f : Nat → α) : Rearranged l u f f := ⟨1, rfl, fun _ _ => rfl⟩

theorem Rearranged.trans (hfg : Rearranged l u f g) (hgh : Rearranged l u g h) :
    Rearranged l u f h := by
  obtain ⟨σ, rfl, hσ⟩ := hfg
  obtain ⟨τ, rfl, hτ⟩ := hgh
  refine ⟨σ * τ, rfl, ?_⟩
  intro k hk
  rw [Equiv.Perm.mul_apply, hτ k hk, hσ k hk]

theorem Rearranged.mono {l' u' : Nat} (h : Rearranged l u f g) (hl : l' ≤ l) (hu : u ≤ u') :
    Rearranged l' u' f g := by
  obtain ⟨σ, rfl, hσ⟩ := h
  refine ⟨σ, rfl, ?_⟩
  intro k hk
  apply hσ
  omega

theorem Rearranged.swap (f : Nat → α) (hi : l ≤ i ∧ i ≤ u) (hj : l ≤ j ∧ j ≤ u) :
    Rearranged l u f (f ∘ Equiv.swap i j) := by
  refine ⟨Equiv.swap i j, rfl, ?_⟩
  intro k hk
  apply Equiv.swap_apply_of_ne_of_ne
  · omega
  · omega

theorem Rearranged.outside (h : Rearranged l u f g) {k : Nat} (hk : k < l ∨ u < k) :
    g k = f k := by
  obtain ⟨σ, rfl, hσ⟩ := h
  exact congrArg f (hσ k hk)

/-- What is true of all values of the range stays true of them. -/
theorem Rearranged.forall {P : α → Prop} (h : Rearranged l u f g)
    (hP : ∀ k, l ≤ k → k ≤ u → P (f k)) : ∀ k, l ≤ k → k ≤ u → P (g k) := by
  obtain ⟨σ, rfl, hσ⟩ := h
  intro k hl hu
  have hinside : ¬ (σ k < l ∨ u < σ k) := by
    intro hout
    have hfix := σ.injective (hσ (σ k) hout)
    omega
  apply hP
  · omega
  · omega

theorem Rearranged.perm (h : Rearranged l u f g) {n : Nat} (hn : l + n = u + 1) :
    ((List.range' l n).map g).Perm ((List.range' l n).map f) := by
  obtain ⟨σ, rfl, hσ⟩ := h
  have hrange : ((List.range' l n).map σ).Perm (List.range' l n) := by
    refine (List.perm_ext_iff_of_nodup ((List.nodup_range').map σ.injective)
      List.nodup_range').mpr fun k => ?_
    rw [List.mem_map, List.mem_range'_1]
    constructor
    · rintro ⟨k', hk', rfl⟩
      rw [List.mem_range'_1] at hk'
      by_contra hout
      have hfix := σ.injective (hσ (σ k') (by omega))
      omega
    · intro hk
      refine ⟨σ.symm k, ?_, σ.apply_symm_apply k⟩
      rw [List.mem_range'_1]
      by_contra hout
      have hfix := hσ (σ.symm k) (by omega)
      rw [σ.apply_symm_apply] at hfix
      omega
  have hmap := hrange.map f
  rwa [List.map_map] at hmap

/-- A comparison that a sort can rely on: `lt` is a strict weak order. -/
structure OrderFunction (lt : α → α → Bool) : Prop where
  asymm : ∀ a b, lt a b = true → lt b a = false
  negTrans : ∀ a b c, lt a b = false → lt b c = false → lt a c = false

variable {lt : α → α → Bool}

theorem OrderFunction.irrefl (h : OrderFunction lt) (a : α) : lt a a = false := by
  cases hlt : lt a a with
  | false => rfl
  | true => exact (h.asymm a a hlt).symm.trans hlt |>.symm

/-- The range is sorted: no later value is less than an earlier one. -/
def Sorted (lt : α → α → Bool) (l u : Nat) (f : Nat → α) : Prop :=
  ∀ k k', l ≤ k → k ≤ k' → k' ≤ u → lt (f k') (f k) = false

theorem Sorted.of_le (h : OrderFunction lt) (hlu : u ≤ l) (f : Nat → α) : Sorted lt l u f := by
  intro k k' hk hkk' hk'
  have heq : k' = k := by omega
  rw [heq]
  exact h.irrefl _

/-- Two sorted parts around a value that lies between them. -/
theorem Sorted.join (horder : OrderFunction lt) (hl : Sorted lt l (i - 1) f)
    (hu : Sorted lt (i + 1) u f) (hlow : ∀ k, l ≤ k → k < i → lt (f i) (f k) = false)
    (hhigh : ∀ k, i < k → k ≤ u → lt (f k) (f i) = false) : Sorted lt l u f := by
  intro k k' hk hkk' hk'
  rcases Nat.lt_trichotomy k' i with hk'i | rfl | hk'i
  · exact hl k k' hk hkk' (by omega)
  · rcases Nat.lt_or_eq_of_le hkk' with hlt | rfl
    · exact hlow k hk hlt
    · exact horder.irrefl _
  · rcases Nat.lt_trichotomy k i with hki | rfl | hki
    · exact horder.negTrans _ _ _ (hhigh k' hk'i hk') (hlow k hk hki)
    · exact hhigh k' hk'i hk'
    · exact hu k k' (by omega) hkk' hk'

/-- A range that is rearranged keeps its sorted parts elsewhere. -/
theorem Sorted.congr (h : Sorted lt l u f) (hfg : ∀ k, l ≤ k → k ≤ u → g k = f k) :
    Sorted lt l u g := by
  intro k k' hk hkk' hk'
  rw [hfg k hk (by omega), hfg k' (by omega) hk']
  exact h k k' hk hkk' hk'

theorem Sorted.pairwise {n : Nat} (h : Sorted lt l u f) (hn : l + n = u + 1) :
    ((List.range' l n).map f).Pairwise fun a b => lt b a = false := by
  rw [List.pairwise_map]
  refine List.Pairwise.imp_of_mem ?_ (List.pairwise_lt_range' (s := l) (n := n))
  intro k k' hk hk' hlt
  rw [List.mem_range'_1] at hk hk'
  exact h k k' (by omega) (by omega) (by omega)

end Ranges
