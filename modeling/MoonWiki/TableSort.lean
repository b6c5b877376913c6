import MoonWiki.Ranges
import MoonWiki.PageListings

/-! `table.sort` of `ltablib.c`: the quicksort behind the sorted pages of the wiki. -/
namespace MoonWiki
open Lua Ranges

/-- The two errors of a sort; `diverges` when the counter of rounds runs out. -/
inductive SortError
  | compareNil
  | invalidOrder
  | diverges
  deriving DecidableEq, Repr

/-- The array part of a Lua table: `nil` where there is no value. -/
abbrev SortTable (α : Type) := Nat → Option α

section
variable {α : Type} (lt : α → α → Bool)

/-- `sort_comp`: comparing `nil` is an error. -/
def sortComp : Option α → Option α → Except SortError Bool
  | some x, some y => .ok (lt x y)
  | _, _ => .error .compareNil

/-- `set2`: `t[i] = x`, then `t[j] = y`. -/
def set2 (t : SortTable α) (i j : Nat) (x y : Option α) : SortTable α :=
  Function.update (Function.update t i x) j y

/-- `repeat ++i until a[i] >= P`; the counter, the places up to `u + 1`, does not run out. -/
def scanUp (t : SortTable α) (p : Option α) (u : Nat) : Nat → Nat → Except SortError Nat
  | 0, _ => .error .diverges
  | fuel + 1, i => do
    if ← sortComp lt (t (i + 1)) p then
      if u < i + 1 then .error .invalidOrder else scanUp t p u fuel (i + 1)
    else return i + 1

/-- `repeat --j until a[j] <= P` -/
def scanDown (t : SortTable α) (p : Option α) (l : Nat) : Nat → Nat → Except SortError Nat
  | 0, _ => .error .diverges
  | fuel + 1, j => do
    if ← sortComp lt p (t (j - 1)) then
      if j - 1 < l then .error .invalidOrder else scanDown t p l fuel (j - 1)
    else return j - 1

/-- The loop that swaps values on the wrong sides of the pivot; the result is its place. -/
def partitionLoop (p : Option α) (l u : Nat) :
    Nat → SortTable α → Nat → Nat → Except SortError (SortTable α × Nat)
  | 0, _, _, _ => .error .diverges
  | fuel + 1, t, i, j => do
    let i ← scanUp lt t p u (u + 1 - i) i
    let j ← scanDown lt t p l (j + 1 - l) j
    if j < i then return (t, i)
    else partitionLoop p l u fuel (set2 t i j (t j) (t i)) i j

/-- The first and last value, and the middle one between them, in order. -/
def sortEnds (t : SortTable α) (l u : Nat) : Except SortError (SortTable α) := do
  if ← sortComp lt (t u) (t l) then return set2 t l u (t u) (t l) else return t

def sortMiddle (t : SortTable α) (l i u : Nat) : Except SortError (SortTable α) := do
  if ← sortComp lt (t i) (t l) then return set2 t i l (t l) (t i)
  else if ← sortComp lt (t u) (t i) then return set2 t i u (t u) (t i)
  else return t

/-- `auxsort`: the smaller part by a call, the larger by the next round of the loop. -/
def auxsort : Nat → SortTable α → Nat → Nat → Except SortError (SortTable α)
  | 0, _, _, _ => .error .diverges
  | fuel + 1, t, l, u => do
    if u ≤ l then return t
    else
      let t ← sortEnds lt t l u
      if u - l = 1 then return t
      else
        let i := (l + u) / 2
        let t ← sortMiddle lt t l i u
        if u - l = 2 then return t
        else
          let p := t i
          let t := set2 t i (u - 1) (t (u - 1)) p
          let (t, i) ← partitionLoop lt p l u (u + 1 - l) t l (u - 1)
          let t := set2 t (u - 1) i (t i) (t (u - 1))
          if i - l < u - i then
            let t ← auxsort fuel t l (i - 1)
            auxsort fuel t (i + 1) u
          else
            let t ← auxsort fuel t (i + 1) u
            auxsort fuel t l (i - 1)

/-- The table of a list, from 1 on. -/
def tableOf (xs : List α) : SortTable α := fun i => if i = 0 then none else xs[i - 1]?

/-- `table.sort` of a table with these values. -/
def tableSort (xs : List α) : Except SortError (List α) := do
  let t ← auxsort lt (xs.length + 1) (tableOf xs) 1 xs.length
  return (List.range' 1 xs.length).filterMap t

end

/-! ### The loops -/

section
variable {α : Type} {lt : α → α → Bool} {f : Nat → α} {n l u i j m : Nat} {p : α}

/-- A table with values from 1 to `n`. -/
def filled (n : Nat) (f : Nat → α) : SortTable α := fun k => if 1 ≤ k ∧ k ≤ n then some (f k) else none

theorem filled_apply (h : 1 ≤ i ∧ i ≤ n) : filled n f i = some (f i) := if_pos h

theorem sortComp_filled (hi : 1 ≤ i ∧ i ≤ n) (hj : 1 ≤ j ∧ j ≤ n) :
    sortComp lt (filled n f i) (filled n f j) = .ok (lt (f i) (f j)) := by
  rw [filled_apply hi, filled_apply hj]
  rfl

/-- Two values change places. -/
theorem set2_filled (hi : 1 ≤ i ∧ i ≤ n) (hj : 1 ≤ j ∧ j ≤ n) :
    set2 (filled n f) i j (filled n f j) (filled n f i) = filled n (f ∘ Equiv.swap i j) := by
  funext k
  by_cases hkj : k = j
  · subst hkj
    rw [set2, Function.update_self, filled_apply hi, filled_apply hj, Function.comp_apply,
      Equiv.swap_apply_right]
  · rw [set2, Function.update_of_ne hkj]
    by_cases hki : k = i
    · subst hki
      rw [Function.update_self, filled_apply hi, filled_apply hj, Function.comp_apply,
        Equiv.swap_apply_left]
    · rw [Function.update_of_ne hki, filled, filled, Function.comp_apply,
        Equiv.swap_apply_of_ne_of_ne hki hkj]

/-- The scan up stops at the first value that is not less, when there is one. -/
theorem scanUp_filled {fuel : Nat} (hu : u ≤ n) (him : i < m) (hmu : m ≤ u)
    (hstop : lt (f m) p = false) (hfuel : m - i ≤ fuel) :
    ∃ i', scanUp lt (filled n f) (some p) u fuel i = .ok i' ∧ i < i' ∧ i' ≤ m ∧
      lt (f i') p = false ∧ ∀ k, i < k → k < i' → lt (f k) p = true := by
  induction fuel generalizing i with
  | zero => omega
  | succ fuel ih =>
    rw [scanUp, filled_apply (by omega)]
    cases hlt : lt (f (i + 1)) p with
    | false =>
      refine ⟨i + 1, ?_, by omega, by omega, hlt, ?_⟩
      · simp [sortComp, hlt]
        rfl
      · intro k hk hk'
        omega
    | true =>
      have hne : i + 1 ≠ m := by
        intro heq
        rw [heq, hstop] at hlt
        cases hlt
      obtain ⟨i', hscan, hi', hm', hfound, hbefore⟩ := ih (i := i + 1) (by omega) (by omega)
      refine ⟨i', ?_, by omega, hm', hfound, ?_⟩
      · have hle : ¬ u < i + 1 := by omega
        simp [sortComp, hlt, hle]
        exact hscan
      · intro k hk hk'
        rcases Nat.lt_or_eq_of_le (Nat.succ_le_of_lt hk) with hlt' | rfl
        · exact hbefore k hlt' hk'
        · exact hlt

/-- The scan down, likewise. -/
theorem scanDown_filled {fuel : Nat} (hl : 1 ≤ l) (hlm : l ≤ m) (hmj : m < j) (hj : j ≤ n + 1)
    (hstop : lt p (f m) = false) (hfuel : j - m ≤ fuel) :
    ∃ j', scanDown lt (filled n f) (some p) l fuel j = .ok j' ∧ m ≤ j' ∧ j' < j ∧
      lt p (f j') = false ∧ ∀ k, j' < k → k < j → lt p (f k) = true := by
  induction fuel generalizing j with
  | zero => omega
  | succ fuel ih =>
    rw [scanDown, filled_apply (by omega)]
    cases hlt : lt p (f (j - 1)) with
    | false =>
      refine ⟨j - 1, ?_, by omega, by omega, hlt, ?_⟩
      · simp [sortComp, hlt]
        rfl
      · intro k hk hk'
        omega
    | true =>
      have hne : j - 1 ≠ m := by
        intro heq
        rw [heq, hstop] at hlt
        cases hlt
      obtain ⟨j', hscan, hm', hj', hfound, hafter⟩ :=
        ih (j := j - 1) (by omega) (by omega) (by omega)
      refine ⟨j', ?_, hm', by omega, hfound, ?_⟩
      · have hle : ¬ j - 1 < l := by omega
        simp [sortComp, hlt, hle]
        exact hscan
      · intro k hk hk'
        rcases Nat.lt_or_eq_of_le (Nat.le_sub_one_of_lt hk') with hlt' | rfl
        · exact hafter k hk hlt'
        · exact hlt

/-- Around the place that the partition returns, no value is on the wrong side of the pivot. -/
theorem partitionLoop_filled (horder : OrderFunction lt) {fuel : Nat} (hl : 1 ≤ l) (hu : u ≤ n)
    (hli : l ≤ i) (hij : i ≤ j) (hlj : l < j) (hju : j ≤ u - 1) (hiu : i < u - 1)
    (hpivot : f (u - 1) = p) (hlow : ∀ k, l ≤ k → k ≤ i → lt p (f k) = false)
    (hhigh : ∀ k, j ≤ k → k ≤ u → lt (f k) p = false) (hfuel : u - i ≤ fuel) :
    ∃ g i', partitionLoop lt (some p) l u fuel (filled n f) i j = .ok (filled n g, i') ∧
      Rearranged l u f g ∧ g (u - 1) = p ∧ l < i' ∧ i' ≤ u - 1 ∧
      (∀ k, l ≤ k → k < i' → lt p (g k) = false) ∧
      ∀ k, i' ≤ k → k ≤ u → lt (g k) p = false := by
  induction fuel generalizing f i j with
  | zero => omega
  | succ fuel ih =>
    have hstop : lt (f (u - 1)) p = false := by
      rw [hpivot]
      exact horder.irrefl p
    have hups : u - 1 - i ≤ u + 1 - i := by omega
    obtain ⟨i', hup, hi', hi'u, hfi', hbefore⟩ := scanUp_filled hu hiu (by omega) hstop hups
    have hfirst : lt p (f (min i (j - 1))) = false := hlow _ (by omega) (by omega)
    have hdowns : j - min i (j - 1) ≤ j + 1 - l := by omega
    obtain ⟨j', hdown, hj'm, hj', hfj', hafter⟩ := scanDown_filled (l := l) (j := j) (n := n) hl
      (by omega) (by omega) (by omega) hfirst hdowns
    have hlow' : ∀ k, l ≤ k → k < i' → lt p (f k) = false := by
      intro k hk hk'
      rcases Nat.lt_or_ge i k with hik | hik
      · exact horder.asymm _ _ (hbefore k hik hk')
      · exact hlow k hk hik
    have hhigh' : ∀ k, j' < k → k ≤ u → lt (f k) p = false := by
      intro k hk hk'
      rcases Nat.lt_or_ge k j with hkj | hkj
      · exact horder.asymm _ _ (hafter k hk hkj)
      · exact hhigh k hkj hk'
    have hround : partitionLoop lt (some p) l u (fuel + 1) (filled n f) i j =
        if j' < i' then .ok (filled n f, i') else
          partitionLoop lt (some p) l u fuel
            (set2 (filled n f) i' j' (filled n f j') (filled n f i')) i' j' := by
      rw [partitionLoop, hup]
      change (do let j ← scanDown lt (filled n f) (some p) l (j + 1 - l) j; _) = _
      rw [hdown]
      rfl
    rw [hround]
    by_cases hcross : j' < i'
    · rw [if_pos hcross]
      refine ⟨f, i', rfl, .refl l u f, hpivot, by omega, hi'u, hlow', ?_⟩
      intro k hk hk'
      exact hhigh' k (by omega) hk'
    · rw [if_neg hcross, set2_filled (by omega) (by omega)]
      have hkeep : ∀ k, k ≠ i' → k ≠ j' → (f ∘ Equiv.swap i' j') k = f k := by
        intro k hki hkj
        rw [Function.comp_apply, Equiv.swap_apply_of_ne_of_ne hki hkj]
      have hlow'' : ∀ k, l ≤ k → k ≤ i' → lt p ((f ∘ Equiv.swap i' j') k) = false := by
        intro k hk hk'
        rcases Nat.lt_or_eq_of_le hk' with hlt | rfl
        · rw [hkeep k (by omega) (by omega)]
          exact hlow' k hk hlt
        · rw [Function.comp_apply, Equiv.swap_apply_left]
          exact hfj'
      have hhigh'' : ∀ k, j' ≤ k → k ≤ u → lt ((f ∘ Equiv.swap i' j') k) p = false := by
        intro k hk hk'
        rcases Nat.lt_or_eq_of_le hk with hlt | rfl
        · rw [hkeep k (by omega) (by omega)]
          exact hhigh' k hlt hk'
        · rw [Function.comp_apply, Equiv.swap_apply_right]
          exact hfi'
      have hpivot' := (hkeep (u - 1) (by omega) (by omega)).trans hpivot
      obtain ⟨g, i'', hloop, hg, hrest⟩ := ih (by omega) (by omega) (by omega) (by omega)
        (by omega) hpivot' hlow'' hhigh'' (by omega)
      exact ⟨g, i'', hloop, (Rearranged.swap f (by omega) (by omega)).trans hg, hrest⟩

theorem sortEnds_filled (horder : OrderFunction lt) (hl : 1 ≤ l) (hlu : l < u) (hu : u ≤ n) :
    ∃ g, sortEnds lt (filled n f) l u = .ok (filled n g) ∧ Rearranged l u f g ∧
      lt (g u) (g l) = false := by
  rw [sortEnds, sortComp_filled (by omega) (by omega)]
  cases hlt : lt (f u) (f l) with
  | false => exact ⟨f, rfl, .refl l u f, hlt⟩
  | true =>
    refine ⟨f ∘ Equiv.swap l u, ?_, .swap f (by omega) (by omega), ?_⟩
    · exact congrArg Except.ok (set2_filled (by omega) (by omega))
    · rw [Function.comp_apply, Function.comp_apply, Equiv.swap_apply_left,
        Equiv.swap_apply_right]
      exact horder.asymm _ _ hlt

theorem sortMiddle_filled (horder : OrderFunction lt) (hl : 1 ≤ l) (hli : l < i) (hiu : i < u)
    (hu : u ≤ n) (hends : lt (f u) (f l) = false) :
    ∃ g, sortMiddle lt (filled n f) l i u = .ok (filled n g) ∧ Rearranged l u f g ∧
      lt (g i) (g l) = false ∧ lt (g u) (g i) = false := by
  rw [sortMiddle, sortComp_filled (by omega) (by omega), sortComp_filled (by omega) (by omega)]
  cases hlow : lt (f i) (f l) with
  | true =>
    refine ⟨f ∘ Equiv.swap i l, ?_, .swap f (by omega) (by omega), ?_, ?_⟩
    · exact congrArg Except.ok (set2_filled (by omega) (by omega))
    · rw [Function.comp_apply, Function.comp_apply, Equiv.swap_apply_left,
        Equiv.swap_apply_right]
      exact horder.asymm _ _ hlow
    · rw [Function.comp_apply, Function.comp_apply, Equiv.swap_apply_left,
        Equiv.swap_apply_of_ne_of_ne (by omega) (by omega)]
      exact hends
  | false =>
    cases hhigh : lt (f u) (f i) with
    | false => exact ⟨f, rfl, .refl l u f, hlow, hhigh⟩
    | true =>
      refine ⟨f ∘ Equiv.swap i u, ?_, .swap f (by omega) (by omega), ?_, ?_⟩
      · exact congrArg Except.ok (set2_filled (by omega) (by omega))
      · rw [Function.comp_apply, Function.comp_apply, Equiv.swap_apply_left,
          Equiv.swap_apply_of_ne_of_ne (by omega) (by omega)]
        exact hends
      · rw [Function.comp_apply, Function.comp_apply, Equiv.swap_apply_left,
          Equiv.swap_apply_right]
        exact horder.asymm _ _ hhigh

/-- What is true of the values of two ranges apart stays true when each is rearranged. -/
theorem forall_of_apart {P Q : α → Prop} {f g h : Nat → α} {l' u' : Nat}
    (hfg : Rearranged l u f g) (hgh : Rearranged l' u' g h) (hapart : u < l' ∨ u' < l)
    (hP : ∀ k, l ≤ k → k ≤ u → P (f k)) (hQ : ∀ k, l' ≤ k → k ≤ u' → Q (f k)) :
    (∀ k, l ≤ k → k ≤ u → P (h k)) ∧ ∀ k, l' ≤ k → k ≤ u' → Q (h k) := by
  constructor
  · intro k hk hk'
    rw [hgh.outside (by omega)]
    exact hfg.forall hP k hk hk'
  · refine hgh.forall ?_
    intro k hk hk'
    rw [hfg.outside (by omega)]
    exact hQ k hk hk'

/-- The pivot put at its place: the two swaps around the loop. -/
theorem partition_filled (horder : OrderFunction lt) (hl : 1 ≤ l) (hlu : l + 2 < u) (hu : u ≤ n)
    (hleft : lt (f ((l + u) / 2)) (f l) = false) (hright : lt (f u) (f ((l + u) / 2)) = false) :
    ∃ g i g', partitionLoop lt (filled n f ((l + u) / 2)) l u (u + 1 - l)
        (set2 (filled n f) ((l + u) / 2) (u - 1) (filled n f (u - 1))
          (filled n f ((l + u) / 2))) l (u - 1) = .ok (filled n g, i) ∧
      set2 (filled n g) (u - 1) i (filled n g i) (filled n g (u - 1)) = filled n g' ∧
      Rearranged l u f g' ∧ l < i ∧ i ≤ u - 1 ∧
      (∀ k, l ≤ k → k ≤ i - 1 → lt (g' i) (g' k) = false) ∧
      ∀ k, i + 1 ≤ k → k ≤ u → lt (g' k) (g' i) = false := by
  have hkeep : ∀ k, k ≠ (l + u) / 2 → k ≠ u - 1 →
      (f ∘ Equiv.swap ((l + u) / 2) (u - 1)) k = f k := by
    intro k hki hku
    rw [Function.comp_apply, Equiv.swap_apply_of_ne_of_ne hki hku]
  have hpivot : (f ∘ Equiv.swap ((l + u) / 2) (u - 1)) (u - 1) = f ((l + u) / 2) := by
    rw [Function.comp_apply, Equiv.swap_apply_right]
  obtain ⟨g, i, hloop, hg, hgp, hli, hiu, hlow, hhigh⟩ := partitionLoop_filled
    (f := f ∘ Equiv.swap ((l + u) / 2) (u - 1)) (i := l) (j := u - 1) horder hl hu (by omega)
    (by omega) (by omega) (by omega) (by omega) hpivot
    (by
      intro k hk hk'
      obtain rfl : k = l := by omega
      rw [hkeep k (by omega) (by omega)]
      exact hleft)
    (by
      intro k hk hk'
      rcases Nat.lt_or_eq_of_le hk with hlt | rfl
      · obtain rfl : k = u := by omega
        rw [hkeep k (by omega) (by omega)]
        exact hright
      · rw [hpivot]
        exact horder.irrefl _)
    (by omega : u - l ≤ u + 1 - l)
  have hplace : (g ∘ Equiv.swap (u - 1) i) i = f ((l + u) / 2) := by
    rw [Function.comp_apply, Equiv.swap_apply_right, hgp]
  refine ⟨g, i, g ∘ Equiv.swap (u - 1) i, ?_, set2_filled (by omega) (by omega), ?_, hli, hiu,
    ?_, ?_⟩
  · rw [set2_filled (by omega) (by omega), filled_apply (by omega)]
    exact hloop
  · exact ((Rearranged.swap f (by omega) (by omega)).trans hg).trans
      (Rearranged.swap g (by omega) (by omega))
  · intro k hk hk'
    rw [hplace, Function.comp_apply, Equiv.swap_apply_of_ne_of_ne (by omega) (by omega)]
    exact hlow k hk (by omega)
  · intro k hk hk'
    rw [hplace]
    by_cases hku : k = u - 1
    · rw [hku, Function.comp_apply, Equiv.swap_apply_left]
      exact hhigh i (by omega) (by omega)
    · rw [Function.comp_apply, Equiv.swap_apply_of_ne_of_ne hku (by omega)]
      exact hhigh k (by omega) hk'

/-- `auxsort` sorts its range, whatever order function it gets. -/
theorem auxsort_filled (horder : OrderFunction lt) {fuel : Nat} (hl : 1 ≤ l) (hu : u ≤ n)
    (hfuel : u + 1 ≤ l + fuel) (hpos : 0 < fuel) :
    ∃ g, auxsort lt fuel (filled n f) l u = .ok (filled n g) ∧ Rearranged l u f g ∧
      Sorted lt l u g := by
  induction fuel generalizing f l u with
  | zero => omega
  | succ fuel ih =>
    rw [auxsort]
    by_cases hlu : u ≤ l
    · rw [if_pos hlu]
      exact ⟨f, rfl, .refl l u f, .of_le horder hlu f⟩
    · rw [if_neg hlu]
      obtain ⟨f₁, hends, hf₁, hlast⟩ := sortEnds_filled (f := f) horder hl (by omega) hu
      rw [hends]
      dsimp only [bind, Except.bind]
      by_cases htwo : u - l = 1
      · rw [if_pos htwo]
        refine ⟨f₁, rfl, hf₁, ?_⟩
        intro k k' hk hkk' hk'
        rcases Nat.lt_or_eq_of_le hkk' with hlt | rfl
        · obtain rfl : k = l := by omega
          obtain rfl : k' = u := by omega
          exact hlast
        · exact horder.irrefl _
      · rw [if_neg htwo]
        obtain ⟨f₂, hmiddle, hf₂, hleft, hright⟩ := sortMiddle_filled (i := (l + u) / 2) horder hl
          (by omega) (by omega) hu hlast
        rw [hmiddle]
        dsimp only
        have hf₂' : Rearranged l u f f₂ := hf₁.trans hf₂
        by_cases hthree : u - l = 2
        · rw [if_pos hthree]
          refine ⟨f₂, rfl, hf₂', ?_⟩
          refine Sorted.join (i := (l + u) / 2) horder (.of_le horder (by omega) f₂)
            (.of_le horder (by omega) f₂) ?_ ?_
          · intro k hk hk'
            obtain rfl : k = l := by omega
            exact hleft
          · intro k hk hk'
            obtain rfl : k = u := by omega
            exact hright
        · rw [if_neg hthree]
          obtain ⟨g, i, h, hloop, hplace, hh, hli, hiu, hlow, hhigh⟩ :=
            partition_filled horder hl (by omega) hu hleft hright
          rw [hloop]
          dsimp only
          rw [hplace]
          have hhf := hf₂'.trans hh
          have hjoin : ∀ g, Sorted lt l (i - 1) g → Sorted lt (i + 1) u g →
              (∀ k, l ≤ k → k ≤ i - 1 → lt (h i) (g k) = false) ∧
                (∀ k, i + 1 ≤ k → k ≤ u → lt (g k) (h i) = false) → g i = h i →
              Sorted lt l u g := by
            intro g hl' hu' hsides hi
            refine Sorted.join horder hl' hu' ?_ ?_
            · intro k hk hk'
              rw [hi]
              exact hsides.1 k hk (by omega)
            · intro k hk hk'
              rw [hi]
              exact hsides.2 k hk hk'
          split_ifs
          · obtain ⟨g₁, hsort₁, hg₁, hs₁⟩ := ih (f := h) (l := l) (u := i - 1) hl (by omega)
              (by omega) (by omega)
            obtain ⟨g₂, hsort₂, hg₂, hs₂⟩ := ih (f := g₁) (l := i + 1) (u := u) (by omega) hu
              (by omega) (by omega)
            rw [hsort₁]
            refine ⟨g₂, hsort₂, ?_, ?_⟩
            · exact (hhf.trans (hg₁.mono (Nat.le_refl l) (by omega))).trans
                (hg₂.mono (by omega) (Nat.le_refl u))
            · refine hjoin g₂ (hs₁.congr fun k hk hk' => hg₂.outside (by omega)) hs₂
                (forall_of_apart (P := fun a => lt (h i) a = false)
                  (Q := fun a => lt a (h i) = false) hg₁ hg₂ (by omega) hlow hhigh) ?_
              rw [hg₂.outside (by omega), hg₁.outside (by omega)]
          · obtain ⟨g₁, hsort₁, hg₁, hs₁⟩ := ih (f := h) (l := i + 1) (u := u) (by omega) hu
              (by omega) (by omega)
            obtain ⟨g₂, hsort₂, hg₂, hs₂⟩ := ih (f := g₁) (l := l) (u := i - 1) hl (by omega)
              (by omega) (by omega)
            rw [hsort₁]
            refine ⟨g₂, hsort₂, ?_, ?_⟩
            · exact (hhf.trans (hg₁.mono (by omega) (Nat.le_refl u))).trans
                (hg₂.mono (Nat.le_refl l) (by omega))
            · refine hjoin g₂ hs₂ (hs₁.congr fun k hk hk' => hg₂.outside (by omega))
                (forall_of_apart (P := fun a => lt a (h i) = false)
                  (Q := fun a => lt (h i) a = false) hg₁ hg₂ (by omega) hhigh hlow).symm ?_
              rw [hg₂.outside (by omega), hg₁.outside (by omega)]

theorem tableOf_filled [Inhabited α] (xs : List α) :
    tableOf xs = filled xs.length fun k => xs.getD (k - 1) default := by
  funext k
  rw [tableOf, filled]
  by_cases hk : k = 0
  · simp [hk]
  · rw [if_neg hk]
    by_cases hlen : k ≤ xs.length
    · have hlt : k - 1 < xs.length := by omega
      rw [if_pos ⟨by omega, hlen⟩, List.getElem?_eq_getElem hlt, List.getD_eq_getElem _ _ hlt]
    · rw [if_neg (by omega), List.getElem?_eq_none (by omega)]

theorem filterMap_filled (n : Nat) (f : Nat → α) :
    (List.range' 1 n).filterMap (filled n f) = (List.range' 1 n).map f := by
  rw [← List.filterMap_eq_map]
  refine List.filterMap_congr fun k hk => ?_
  rw [List.mem_range'_1] at hk
  exact filled_apply (by omega)

theorem map_getD [Inhabited α] (xs : List α) :
    (List.range' 1 xs.length).map (fun k => xs.getD (k - 1) default) = xs := by
  refine List.ext_getElem (by simp) fun k hk hk' => ?_
  simp [List.getElem_range', hk']

/-- `table.sort` sorts every table by every strict weak order, and raises no error. -/
theorem tableSort_sorts (horder : OrderFunction lt) (xs : List α) :
    ∃ ys, tableSort lt xs = .ok ys ∧ ys.Perm xs ∧ ys.Pairwise fun a b => lt b a = false := by
  rcases xs with _ | ⟨x, xs⟩
  · exact ⟨[], rfl, .refl _, .nil⟩
  · have : Inhabited α := ⟨x⟩
    generalize x :: xs = xs
    obtain ⟨g, hsort, hg, hsorted⟩ := auxsort_filled (f := fun k => xs.getD (k - 1) default)
      (n := xs.length) (l := 1) (u := xs.length) horder (Nat.le_refl 1) (Nat.le_refl _)
      (by omega : xs.length + 1 ≤ 1 + (xs.length + 1)) (by omega)
    refine ⟨(List.range' 1 xs.length).map g, ?_, ?_, ?_⟩
    · rw [tableSort, tableOf_filled, hsort]
      exact congrArg Except.ok (filterMap_filled _ g)
    · have hperm := hg.perm (n := xs.length) (by omega)
      rwa [map_getD] at hperm
    · exact hsorted.pairwise (by omega)

end

/-! ### Comparing strings -/

/-- `strcmp`, and `strcoll` in the C locale: bytes, a string before what it begins. -/
def strcmp : Bytes → Bytes → Ordering
  | [], [] => .eq
  | [], _ :: _ => .lt
  | _ :: _, [] => .gt
  | a :: l, b :: r => if a < b then .lt else if b < a then .gt else strcmp l r

def strcoll (l r : Bytes) : Ordering := strcmp (cString l) (cString r)

theorem length_cString_le (l : Bytes) : (cString l).length ≤ l.length :=
  (List.takeWhile_prefix _).length_le

/-- `l_strcmp` of `lvm.c`: chunk by chunk between the zero bytes. -/
def lStrcmp (l r : Bytes) : Ordering :=
  let temp := strcoll l r
  if temp ≠ .eq then temp
  else
    let len := (cString l).length
    if len = r.length then if len = l.length then .eq else .gt
    else if len = l.length then .lt
    else lStrcmp (l.drop (len + 1)) (r.drop (len + 1))
termination_by l.length
decreasing_by
  have hle := length_cString_le l
  rw [List.length_drop]
  omega

/-- `luaV_lessthan` of two strings. -/
def stringLess (l r : Bytes) : Bool := lStrcmp l r == .lt

theorem byte_trichotomy (a b : Byte) : a < b ∨ a = b ∨ b < a := by
  rcases UInt8.lt_or_le a b with hlt | hle
  · exact .inl hlt
  · rcases UInt8.lt_or_eq_of_le hle with hlt | rfl
    · exact .inr (.inr hlt)
    · exact .inr (.inl rfl)

theorem strcmp_cons (a : Byte) (l r : Bytes) : strcmp (a :: l) (a :: r) = strcmp l r := by
  rw [strcmp, if_neg (by simp), if_neg (by simp)]

theorem cString_cons {a : Byte} (ha : a ≠ 0) (l : Bytes) : cString (a :: l) = a :: cString l :=
  List.takeWhile_cons_of_pos (by simpa using ha)

theorem cString_zero_cons (l : Bytes) : cString (0 :: l) = [] := rfl

/-- Comparing chunk by chunk is comparing byte by byte. -/
theorem strcmp_chunk (l r : Bytes) : strcmp l r =
    if strcoll l r ≠ .eq then strcoll l r
    else if (cString l).length = r.length then
      if (cString l).length = l.length then .eq else .gt
    else if (cString l).length = l.length then .lt
    else strcmp (l.drop ((cString l).length + 1)) (r.drop ((cString l).length + 1)) := by
  induction l generalizing r with
  | nil =>
    rcases r with _ | ⟨b, r⟩
    · rfl
    · by_cases hb : b = 0
      · subst hb
        rfl
      · rw [strcoll, cString_cons hb]
        rfl
  | cons a l ih =>
    by_cases ha : a = 0
    · subst ha
      rcases r with _ | ⟨b, r⟩
      · rfl
      · by_cases hb : b = 0
        · subst hb
          rw [strcmp_cons]
          rfl
        · have hpos : (0 : Byte) < b := UInt8.pos_iff_ne_zero.mpr hb
          rw [strcoll, cString_cons hb, strcmp, if_pos hpos]
          rfl
    · rcases r with _ | ⟨b, r⟩
      · rw [strcoll, cString_cons ha]
        rfl
      · by_cases hb : b = 0
        · subst hb
          have hpos : (0 : Byte) < a := UInt8.pos_iff_ne_zero.mpr ha
          rw [strcoll, cString_cons ha, strcmp, if_neg (UInt8.not_lt.mpr (UInt8.le_of_lt hpos)),
            if_pos hpos]
          rfl
        · rw [strcoll, cString_cons ha, cString_cons hb]
          rcases byte_trichotomy a b with hlt | rfl | hlt
          · rw [strcmp, strcmp, if_pos hlt, if_pos hlt]
            rfl
          · rw [strcmp_cons, strcmp_cons]
            have hih := ih r
            rw [strcoll] at hih
            simp only [List.length_cons, Nat.add_right_cancel_iff, List.drop_succ_cons]
            exact hih
          · have hnot : ¬ a < b := UInt8.not_lt.mpr (UInt8.le_of_lt hlt)
            rw [strcmp, strcmp, if_neg hnot, if_pos hlt, if_neg hnot, if_pos hlt]
            rfl

theorem lStrcmp_eq (l r : Bytes) : lStrcmp l r = strcmp l r := by
  induction hn : l.length using Nat.strong_induction_on generalizing l r with
  | _ n ih =>
    rw [lStrcmp, strcmp_chunk]
    dsimp only
    split_ifs
    · rfl
    · rfl
    · rfl
    · rfl
    · have hle := length_cString_le l
      refine ih _ ?_ _ _ rfl
      rw [List.length_drop]
      omega

theorem strcmp_eq_lt (l r : Bytes) : strcmp l r = .lt ↔ l < r := by
  induction l generalizing r with
  | nil => cases r <;> simp [strcmp]
  | cons a l ih =>
    cases r with
    | nil => simp [strcmp]
    | cons b r =>
      rw [strcmp, List.cons_lt_cons_iff]
      rcases byte_trichotomy a b with hlt | rfl | hlt
      · simp [hlt]
      · simp [ih]
      · have hnot : ¬ a < b := UInt8.not_lt.mpr (UInt8.le_of_lt hlt)
        simp [hlt, hnot, (UInt8.ne_of_lt hlt).symm]

theorem stringLess_iff (l r : Bytes) : stringLess l r = true ↔ l < r := by
  rw [stringLess, lStrcmp_eq, beq_iff_eq, strcmp_eq_lt]

theorem stringLess_false (l r : Bytes) : stringLess l r = false ↔ r ≤ l := by
  rw [← List.not_lt, ← stringLess_iff, Bool.not_eq_true]

theorem orderFunction_stringLess : OrderFunction stringLess where
  asymm a b h := by
    rw [stringLess_false]
    exact List.le_of_lt ((stringLess_iff a b).mp h)
  negTrans a b c hab hbc := by
    rw [stringLess_false] at *
    exact List.le_trans hbc hab

/-! ### The sorts of the wiki -/

theorem tableSort_titles (pages : List Bytes) :
    tableSort stringLess pages = .ok (sortTitles pages) := by
  obtain ⟨ys, hsort, hperm, hsorted⟩ := tableSort_sorts orderFunction_stringLess pages
  have hle : ys.Pairwise (· ≤ ·) := hsorted.imp fun h => (stringLess_false _ _).mp h
  have hle' : (sortTitles pages).Pairwise (· ≤ ·) := List.pairwise_insertionSort _ pages
  rw [hsort, List.Perm.eq_of_pairwise' hle hle' (hperm.trans (perm_sortTitles pages).symm)]

/-- `date1 > date2` of two listed files. -/
def laterDate (a b : FileEntry) : Bool := stringLess b.date a.date

theorem orderFunction_laterDate : OrderFunction laterDate where
  asymm _ _ h := orderFunction_stringLess.asymm _ _ h
  negTrans _ _ _ hab hbc := orderFunction_stringLess.negTrans _ _ _ hbc hab

theorem tableSort_changes (files : List FileEntry) :
    ∃ changes, tableSort laterDate files = .ok changes ∧ changes.Perm files ∧
      changes.Pairwise fun a b => b.date ≤ a.date := by
  obtain ⟨changes, hsort, hperm, hsorted⟩ := tableSort_sorts orderFunction_laterDate files
  exact ⟨changes, hsort, hperm, hsorted.imp fun h => (stringLess_false _ _).mp h⟩

/-- The sort of the recent changes is this one. -/
def DateSort.table : DateSort where
  run files := (tableSort laterDate files).toOption.getD files
  perm files := by
    obtain ⟨changes, hsort, hperm, _⟩ := tableSort_changes files
    rw [hsort]
    exact hperm
  sorted files := by
    obtain ⟨changes, hsort, _, hsorted⟩ := tableSort_changes files
    rw [hsort]
    exact hsorted

theorem tableSort_run (files : List FileEntry) :
    tableSort laterDate files = .ok (DateSort.table.run files) := by
  obtain ⟨changes, hsort, _⟩ := tableSort_changes files
  have hrun : DateSort.table.run files = (tableSort laterDate files).toOption.getD files := rfl
  rw [hrun, hsort]
  rfl

/-- Both sorts of the wiki end without an error: the titles of the index page and of the reverse
links bytewise, the recent changes from the newest file on. -/
theorem tableSort_pages (pages : List Bytes) (files : List FileEntry) :
    tableSort stringLess pages = .ok (sortTitles pages) ∧
      tableSort laterDate files = .ok (DateSort.table.run files) ∧
      (DateSort.table.run files).Perm files ∧
      (DateSort.table.run files).Pairwise fun a b => b.date ≤ a.date := by
  exact ⟨tableSort_titles pages, tableSort_run files, DateSort.table.perm files,
    DateSort.table.sorted files⟩

end MoonWiki
