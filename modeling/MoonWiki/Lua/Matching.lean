import MoonWiki.Lua.Gsub

/-! Rules for the matcher and for the loops over matches. -/
namespace Lua

section
variable {α : Type} {p : Byte → Bool} {rest : Bytes → Option α}

/-! ### Greedy repetition -/

/-- When no run leads to a match, the rest matches after none. -/
theorem maxExpand_none {u v : Bytes} (h : maxExpand p rest (u ++ v) = none)
    (hu : ∀ b ∈ u, p b) : rest v = none := by
  induction u with
  | nil =>
    cases v with
    | nil => exact h
    | cons c v =>
      rw [List.nil_append, maxExpand] at h
      split at h
      · split at h
        · cases h
        · exact h
      · exact h
  | cons c u ih =>
    refine ih ?_ fun b hb => hu b (List.mem_cons_of_mem _ hb)
    rw [List.cons_append, maxExpand, if_pos (hu c (List.mem_cons_self ..))] at h
    split at h
    · cases h
    · assumption

/-- The run that was taken, after which no longer one matches. -/
theorem maxExpand_greedy {s : Bytes} {r : α} (h : maxExpand p rest s = some r) :
    ∃ u v, s = u ++ v ∧ (∀ b ∈ u, p b) ∧ rest v = some r ∧
      ∀ w x, v = w ++ x → w ≠ [] → (∀ b ∈ w, p b) → rest x = none := by
  induction s with
  | nil =>
    refine ⟨[], [], rfl, by simp, h, fun w x hwx hw _ => ?_⟩
    exact absurd (List.append_eq_nil_iff.mp hwx.symm).1 hw
  | cons c s ih =>
    rw [maxExpand] at h
    by_cases hc : p c = true
    · rw [if_pos hc] at h
      cases hm : maxExpand p rest s with
      | none =>
        rw [hm] at h
        refine ⟨[], c :: s, rfl, by simp, h, fun w x hwx hw hp => ?_⟩
        obtain ⟨b, w, rfl⟩ := List.exists_cons_of_ne_nil hw
        obtain ⟨rfl, rfl⟩ := List.cons.inj hwx
        exact maxExpand_none hm fun b hb => hp b (List.mem_cons_of_mem _ hb)
      | some r' =>
        rw [hm] at h
        obtain ⟨u, v, rfl, hu, hv, hlast⟩ := ih (hm.trans h)
        exact ⟨c :: u, v, rfl, by simpa [hc] using hu, hv, hlast⟩
    · rw [if_neg hc] at h
      refine ⟨[], c :: s, rfl, by simp, h, fun w x hwx hw hp => ?_⟩
      obtain ⟨b, w, rfl⟩ := List.exists_cons_of_ne_nil hw
      obtain ⟨rfl, rfl⟩ := List.cons.inj hwx
      exact absurd (hp c (List.mem_cons_self ..)) hc

theorem maxExpand_sound {s : Bytes} {r : α} (h : maxExpand p rest s = some r) :
    ∃ u v, s = u ++ v ∧ (∀ b ∈ u, p b) ∧ rest v = some r := by
  obtain ⟨u, v, hs, hu, hv, _⟩ := maxExpand_greedy h
  exact ⟨u, v, hs, hu, hv⟩

/-- The longest run is taken when the rest matches after it. -/
theorem maxExpand_longest {u v : Bytes} {r : α} (hu : ∀ b ∈ u, p b)
    (hv : ∀ b t, v = b :: t → p b = false) (hr : rest v = some r) :
    maxExpand p rest (u ++ v) = some r := by
  induction u with
  | nil =>
    cases v with
    | nil => exact hr
    | cons b t => simp [maxExpand, hv b t rfl, hr]
  | cons c u ih =>
    have hc : p c = true := hu c (by simp)
    rw [List.cons_append, maxExpand, if_pos hc, ih fun b hb => hu b (by simp [hb])]

theorem maxExpand_eq_none {s : Bytes}
    (h : ∀ u v, s = u ++ v → (∀ b ∈ u, p b) → rest v = none) : maxExpand p rest s = none := by
  cases hm : maxExpand p rest s with
  | none => rfl
  | some r =>
    obtain ⟨u, v, hs, hu, hv⟩ := maxExpand_sound hm
    rw [h u v hs hu] at hv
    cases hv

/-- The run that is taken is the longest after which the rest matches. -/
theorem maxExpand_last {u v : Bytes} {r : α} (hu : ∀ b ∈ u, p b) (hr : rest v = some r)
    (hlast : ∀ w x, v = w ++ x → w ≠ [] → (∀ b ∈ w, p b) → rest x = none) :
    maxExpand p rest (u ++ v) = some r := by
  induction u with
  | nil =>
    cases v with
    | nil => exact hr
    | cons b t =>
      rw [List.nil_append, maxExpand]
      by_cases hb : p b = true
      · rw [if_pos hb, maxExpand_eq_none, hr]
        intro w x hwx hw
        exact hlast (b :: w) x (by simp [hwx]) (by simp) (by simpa [hb] using hw)
      · rw [if_neg hb, hr]
  | cons c u ih =>
    have hc : p c = true := hu c (by simp)
    rw [List.cons_append, maxExpand, if_pos hc, ih fun b hb => hu b (by simp [hb])]

/-! ### Lazy repetition -/

theorem minExpand_sound {s : Bytes} {r : α} (h : minExpand p rest s = some r) :
    ∃ u v, s = u ++ v ∧ (∀ b ∈ u, p b) ∧ rest v = some r := by
  induction s with
  | nil => exact ⟨[], [], rfl, by simp, h⟩
  | cons c s ih =>
    rw [minExpand] at h
    cases hr : rest (c :: s) with
    | some r' =>
      rw [hr] at h
      exact ⟨[], c :: s, rfl, by simp, hr.trans h⟩
    | none =>
      by_cases hc : p c = true
      · simp only [hr, hc, ↓reduceIte] at h
        obtain ⟨u, v, rfl, hu, hv⟩ := ih h
        exact ⟨c :: u, v, rfl, by simpa [hc] using hu, hv⟩
      · simp [hr, hc] at h

/-! ### What a match covers -/

/-- An item takes bytes of its class, and the rest matches after them. -/
theorem expand_sound {q : Quant} {s : Bytes} {r : α} (h : expand p rest q s = some r) :
    ∃ u v, s = u ++ v ∧ (∀ b ∈ u, p b) ∧ rest v = some r := by
  cases q with
  | one =>
    cases s with
    | nil => simp [expand] at h
    | cons b s =>
      rw [expand] at h
      split at h
      · rename_i hb
        exact ⟨[b], s, rfl, by simpa using hb, h⟩
      · cases h
  | opt =>
    cases s with
    | nil => exact ⟨[], [], rfl, by simp, h⟩
    | cons b s =>
      rw [expand] at h
      split at h
      · rename_i hb
        cases hs : rest s with
        | none =>
          rw [hs] at h
          exact ⟨[], b :: s, rfl, by simp, h⟩
        | some x =>
          simp only [hs] at h
          exact ⟨[b], s, rfl, by simpa using hb, hs.trans h⟩
      · exact ⟨[], b :: s, rfl, by simp, h⟩
  | star => exact maxExpand_sound h
  | plus =>
    cases s with
    | nil => simp [expand] at h
    | cons b s =>
      rw [expand] at h
      split at h
      · rename_i hb
        obtain ⟨u, v, rfl, hu, hv⟩ := maxExpand_sound h
        exact ⟨b :: u, v, rfl, by simpa [hb] using hu, hv⟩
      · cases h
  | minus => exact minExpand_sound h

theorem doMatch_suffix {is : List Item} {caps : List Capture} {s r : Bytes} {c : List Capture}
    (h : doMatch is caps s = some (r, c)) : r <:+ s := by
  induction is generalizing caps s with
  | nil =>
    simp only [doMatch, Option.some.injEq, Prod.mk.injEq] at h
    exact h.1 ▸ List.suffix_rfl
  | cons i is ih =>
    cases i with
    | single cl q =>
      obtain ⟨u, v, rfl, _, hv⟩ := expand_sound h
      exact (ih hv).trans (List.suffix_append u v)
    | startCapture => exact ih h
    | endCapture => exact ih h
    | eos =>
      rw [doMatch] at h
      split at h
      · exact ih h
      · cases h

/-- The bytes a capture holds. -/
def Capture.bytes : Capture → Bytes
  | .unfinished init => init
  | .done t => t

theorem endCapture_bytes {P : Byte → Prop} {s : Bytes} {caps : List Capture}
    (h : ∀ c ∈ caps, ∀ b ∈ c.bytes, P b) : ∀ c ∈ endCapture s caps, ∀ b ∈ c.bytes, P b := by
  induction caps with
  | nil => exact h
  | cons c caps ih =>
    have htail := ih fun d hd => h d (by simp [hd])
    intro d hd
    rw [endCapture.eq_def] at hd
    simp only at hd
    split at hd
    · rcases List.mem_cons.mp hd with rfl | hd
      · exact h _ (by simp)
      · exact htail d hd
    · cases c with
      | unfinished init =>
        rcases List.mem_cons.mp hd with rfl | hd
        · exact fun b hb => h (.unfinished init) (by simp) b (List.mem_of_mem_take hb)
        · exact h d (by simp [hd])
      | done t => exact h d hd

/-- What is captured comes from the subject. -/
theorem doMatch_bytes {P : Byte → Prop} {is : List Item} {caps : List Capture} {s r : Bytes}
    {c : List Capture} (h : doMatch is caps s = some (r, c)) (hs : ∀ b ∈ s, P b)
    (hcaps : ∀ d ∈ caps, ∀ b ∈ d.bytes, P b) : ∀ d ∈ c, ∀ b ∈ d.bytes, P b := by
  induction is generalizing caps s with
  | nil =>
    simp only [doMatch, Option.some.injEq, Prod.mk.injEq] at h
    exact h.2 ▸ hcaps
  | cons i is ih =>
    cases i with
    | single cl q =>
      obtain ⟨u, v, rfl, _, hv⟩ := expand_sound h
      exact ih hv (fun b hb => hs b (by simp [hb])) hcaps
    | startCapture =>
      refine ih h hs fun d hd => ?_
      rcases List.mem_append.mp hd with hd | hd
      · exact hcaps d hd
      · obtain rfl := List.mem_singleton.mp hd
        exact hs
    | endCapture => exact ih h hs (endCapture_bytes hcaps)
    | eos =>
      rw [doMatch] at h
      split at h
      · exact ih h hs hcaps
      · cases h

end

/-- A match and what follows it make up the subject. -/
theorem matchHere_append {is : List Item} {s : Bytes} {m : Match} (h : matchHere is s = some m) :
    m.whole ++ m.after = s := by
  obtain ⟨⟨r, c⟩, hm, rfl⟩ := Option.map_eq_some_iff.mp h
  obtain ⟨u, rfl⟩ := doMatch_suffix hm
  simp

theorem matchHere_of_doMatch {is : List Item} {u r : Bytes} {c : List Capture}
    (h : doMatch is [] (u ++ r) = some (r, c)) :
    matchHere is (u ++ r) = some ⟨u, pushCaptures u c, r⟩ := by
  simp [matchHere, h]

theorem matchHere_eq_none {is : List Item} {s : Bytes} (h : doMatch is [] s = none) :
    matchHere is s = none := by
  simp [matchHere, h]

/-- The texts a match hands over are made of bytes of the subject. -/
theorem matchHere_bytes {P : Byte → Prop} {is : List Item} {s : Bytes} {m : Match}
    (h : matchHere is s = some m) (hs : ∀ b ∈ s, P b) :
    (∀ b ∈ m.whole, P b) ∧ ∀ t ∈ m.captures, ∀ b ∈ t, P b := by
  obtain ⟨⟨r, c⟩, hm, rfl⟩ := Option.map_eq_some_iff.mp h
  have htake : ∀ b ∈ s.take (s.length - r.length), P b := fun b hb => hs b (List.mem_of_mem_take hb)
  refine ⟨htake, ?_⟩
  intro t ht
  simp only [pushCaptures] at ht
  split at ht
  · obtain rfl := List.mem_singleton.mp ht
    exact htake
  · obtain ⟨d, hd, rfl⟩ := List.mem_map.mp ht
    have hbytes := doMatch_bytes hm hs (by simp) d hd
    cases d <;> exact hbytes

/-! ### Captured runs -/

/-- The capture opened last is the one that is closed. -/
theorem endCapture_append (caps : List Capture) (init s : Bytes) :
    endCapture s (caps ++ [.unfinished init]) =
      caps ++ [.done (init.take (init.length - s.length))] := by
  induction caps with
  | nil => rfl
  | cons c caps ih => cases c <;> simp [endCapture, ih]

section
variable {is : List Item} {caps : List Capture} {c : Single} {u v : Bytes}
  {r : Bytes × List Capture}

/-- `c+` takes the longest run when the rest matches after it. -/
theorem doMatch_plus (hne : u ≠ []) (hu : ∀ b ∈ u, singleMatch b c)
    (hv : ∀ b t, v = b :: t → singleMatch b c = false) (hr : doMatch is caps v = some r) :
    doMatch (.single c .plus :: is) caps (u ++ v) = some r := by
  obtain ⟨b, t, rfl⟩ := List.exists_cons_of_ne_nil hne
  rw [doMatch, List.cons_append, expand, if_pos (hu b (by simp))]
  exact maxExpand_longest (fun d hd => hu d (by simp [hd])) hv hr

/-- `c+` takes the longest run after which the rest matches. -/
theorem doMatch_plus_last (hne : u ≠ []) (hu : ∀ b ∈ u, singleMatch b c)
    (hr : doMatch is caps v = some r)
    (hlast : ∀ w x, v = w ++ x → w ≠ [] → (∀ b ∈ w, singleMatch b c) → doMatch is caps x = none) :
    doMatch (.single c .plus :: is) caps (u ++ v) = some r := by
  obtain ⟨b, t, rfl⟩ := List.exists_cons_of_ne_nil hne
  rw [doMatch, List.cons_append, expand, if_pos (hu b (by simp))]
  exact maxExpand_last (fun d hd => hu d (by simp [hd])) hr hlast

/-- `c*` takes the longest run when the rest matches after it. -/
theorem doMatch_star (hu : ∀ b ∈ u, singleMatch b c)
    (hv : ∀ b t, v = b :: t → singleMatch b c = false) (hr : doMatch is caps v = some r) :
    doMatch (.single c .star :: is) caps (u ++ v) = some r := by
  rw [doMatch, expand]
  exact maxExpand_longest hu hv hr

/-- `c+` took a run after which no longer one leads to a match. -/
theorem doMatch_plus_greedy {s : Bytes} (h : doMatch (.single c .plus :: is) caps s = some r) :
    ∃ u v, s = u ++ v ∧ u ≠ [] ∧ (∀ b ∈ u, singleMatch b c) ∧ doMatch is caps v = some r ∧
      ∀ w x, v = w ++ x → w ≠ [] → (∀ b ∈ w, singleMatch b c) → doMatch is caps x = none := by
  cases s with
  | nil => simp [doMatch, expand] at h
  | cons b s =>
    rw [doMatch, expand] at h
    split at h
    · rename_i hb
      obtain ⟨u, v, rfl, hu, hv, hlast⟩ := maxExpand_greedy h
      exact ⟨b :: u, v, rfl, by simp, by simpa [hb] using hu, hv, hlast⟩
    · cases h

theorem doMatch_plus_sound {s : Bytes} (h : doMatch (.single c .plus :: is) caps s = some r) :
    ∃ u v, s = u ++ v ∧ u ≠ [] ∧ (∀ b ∈ u, singleMatch b c) ∧ doMatch is caps v = some r := by
  obtain ⟨u, v, hs, hne, hu, hv, _⟩ := doMatch_plus_greedy h
  exact ⟨u, v, hs, hne, hu, hv⟩

/-- Where `c+` leads to no match, the rest matches after no run. -/
theorem doMatch_plus_none (hne : u ≠ []) (hu : ∀ b ∈ u, singleMatch b c)
    (h : doMatch (.single c .plus :: is) caps (u ++ v) = none) : doMatch is caps v = none := by
  obtain ⟨b, t, rfl⟩ := List.exists_cons_of_ne_nil hne
  rw [doMatch, List.cons_append, expand, if_pos (hu b (by simp))] at h
  exact maxExpand_none h fun d hd => hu d (by simp [hd])

theorem doMatch_one_sound {s : Bytes} (h : doMatch (.single c .one :: is) caps s = some r) :
    ∃ b t, s = b :: t ∧ singleMatch b c = true ∧ doMatch is caps t = some r := by
  cases s with
  | nil => simp [doMatch, expand] at h
  | cons b t =>
    rw [doMatch, expand] at h
    split at h
    · exact ⟨b, t, rfl, by assumption, h⟩
    · cases h

theorem doMatch_star_sound {s : Bytes} (h : doMatch (.single c .star :: is) caps s = some r) :
    ∃ u v, s = u ++ v ∧ (∀ b ∈ u, singleMatch b c) ∧ doMatch is caps v = some r :=
  maxExpand_sound h

/-- The capture that ends here. -/
theorem doMatch_endCapture (u v : Bytes) :
    doMatch (.endCapture :: is) (caps ++ [.unfinished (u ++ v)]) v =
      doMatch is (caps ++ [.done u]) v := by
  rw [doMatch, endCapture_append, List.length_append, Nat.add_sub_cancel, List.take_left]

/-- `(c+)` captures the longest run when the rest matches after it. -/
theorem doMatch_capture_plus (hne : u ≠ []) (hu : ∀ b ∈ u, singleMatch b c)
    (hv : ∀ b t, v = b :: t → singleMatch b c = false)
    (hr : doMatch is (caps ++ [.done u]) v = some r) :
    doMatch (.startCapture :: .single c .plus :: .endCapture :: is) caps (u ++ v) = some r := by
  rw [doMatch]
  exact doMatch_plus hne hu hv ((doMatch_endCapture u v).trans hr)

/-- `(c*)` captures the longest run when the rest matches after it. -/
theorem doMatch_capture_star (hu : ∀ b ∈ u, singleMatch b c)
    (hv : ∀ b t, v = b :: t → singleMatch b c = false)
    (hr : doMatch is (caps ++ [.done u]) v = some r) :
    doMatch (.startCapture :: .single c .star :: .endCapture :: is) caps (u ++ v) = some r := by
  rw [doMatch]
  exact doMatch_star hu hv ((doMatch_endCapture u v).trans hr)

theorem doMatch_one {q : Bytes} {b : Byte} (h : singleMatch b c) :
    doMatch (.single c .one :: is) caps (b :: q) = doMatch is caps q := by
  simp [doMatch, expand, h]

end

/-! ### Literal text -/

def literalItems (bs : Bytes) : List Item := bs.map fun b => .single (.lit b) .one

theorem doMatch_literal (bs : Bytes) (is : List Item) (caps : List Capture) (s : Bytes) :
    doMatch (literalItems bs ++ is) caps (bs ++ s) = doMatch is caps s := by
  induction bs with
  | nil => rfl
  | cons b bs ih => exact (doMatch_one (by simp [singleMatch])).trans ih

theorem doMatch_literal_none {bs : Bytes} {is : List Item} {caps : List Capture} {s : Bytes}
    (h : ¬ bs <+: s) : doMatch (literalItems bs ++ is) caps s = none := by
  induction bs generalizing s with
  | nil => exact absurd List.nil_prefix h
  | cons b bs ih =>
    cases s with
    | nil => rfl
    | cons c s =>
      by_cases hb : b = c
      · subst hb
        refine (doMatch_one (by simp [singleMatch])).trans (ih fun hs => h ?_)
        exact List.cons_prefix_cons.mpr ⟨rfl, hs⟩
      · simp [literalItems, doMatch, expand, singleMatch, hb]

/-! ### Leftmost matches -/

/-- The first match: none begins in what stands before it. -/
theorem findFrom_first {is : List Item} {s before : Bytes} {m : Match}
    (h : findFrom is s = some (before, m)) :
    ∃ v, s = before ++ v ∧ matchHere is v = some m ∧
      ∀ x y, before = x ++ y → y ≠ [] → matchHere is (y ++ v) = none := by
  induction s generalizing before with
  | nil =>
    rw [findFrom] at h
    obtain ⟨m', hm, heq⟩ := Option.map_eq_some_iff.mp h
    obtain ⟨rfl, rfl⟩ := Prod.mk.inj heq
    exact ⟨[], rfl, hm, fun x y hxy hy => absurd (List.append_eq_nil_iff.mp hxy.symm).2 hy⟩
  | cons c s ih =>
    rw [findFrom] at h
    cases hm : matchHere is (c :: s) with
    | some m' =>
      rw [hm] at h
      obtain ⟨rfl, rfl⟩ := Prod.mk.inj (Option.some.inj h)
      exact ⟨c :: s, rfl, hm, fun x y hxy hy => absurd (List.append_eq_nil_iff.mp hxy.symm).2 hy⟩
    | none =>
      rw [hm] at h
      obtain ⟨⟨u, m'⟩, hrec, heq⟩ := Option.map_eq_some_iff.mp h
      obtain ⟨rfl, rfl⟩ := Prod.mk.inj heq
      obtain ⟨v, rfl, hv, hfirst⟩ := ih hrec
      refine ⟨v, rfl, hv, fun x y hxy hy => ?_⟩
      cases x with
      | nil =>
        rw [List.nil_append] at hxy
        exact hxy ▸ hm
      | cons d x => exact hfirst x y (List.cons.inj hxy).2 hy

theorem findFrom_sound {is : List Item} {s before : Bytes} {m : Match}
    (h : findFrom is s = some (before, m)) :
    ∃ v, s = before ++ v ∧ matchHere is v = some m := by
  obtain ⟨v, hs, hm, _⟩ := findFrom_first h
  exact ⟨v, hs, hm⟩

theorem findFrom_here {is : List Item} {s : Bytes} {m : Match} (h : matchHere is s = some m) :
    findFrom is s = some ([], m) := by
  cases s with
  | nil => simp [findFrom, h]
  | cons c s => simp [findFrom, h]

/-- What no match begins in is passed over. -/
theorem findFrom_skip {is : List Item} {u v : Bytes}
    (h : ∀ x y, u = x ++ y → y ≠ [] → matchHere is (y ++ v) = none) :
    findFrom is (u ++ v) = (findFrom is v).map fun found => (u ++ found.1, found.2) := by
  induction u with
  | nil => simp
  | cons c u ih =>
    have hmiss := h [] (c :: u) rfl (List.cons_ne_nil _ _)
    have hrest := ih fun x y hxy => h (c :: x) y (by rw [hxy, List.cons_append])
    rw [List.cons_append] at hmiss ⊢
    rw [findFrom, hmiss]
    dsimp only
    rw [hrest, Option.map_map]
    rfl

theorem findFrom_isSome {is : List Item} {s : Bytes} :
    (findFrom is s).isSome ↔ ∃ u v, s = u ++ v ∧ (matchHere is v).isSome := by
  induction s with
  | nil =>
    rw [findFrom, Option.isSome_map]
    constructor
    · exact fun h => ⟨[], [], rfl, h⟩
    · rintro ⟨u, v, huv, h⟩
      rwa [(List.append_eq_nil_iff.mp huv.symm).2] at h
  | cons c s ih =>
    rw [findFrom]
    cases hm : matchHere is (c :: s) with
    | some m => exact iff_of_true rfl ⟨[], c :: s, rfl, by rw [hm]; rfl⟩
    | none =>
      rw [Option.isSome_map, ih]
      constructor
      · rintro ⟨u, v, rfl, h⟩
        exact ⟨c :: u, v, rfl, h⟩
      · rintro ⟨u, v, huv, h⟩
        cases u with
        | nil =>
          rw [List.nil_append] at huv
          rw [← huv, hm] at h
          cases h
        | cons d u => exact ⟨u, v, (List.cons.inj huv).2, h⟩

/-! ### The loop of `gsub` -/

theorem scanFrom_skip {is : List Item} (u s : Bytes) :
    scanFrom is u.length (u ++ s) = scanFrom is 0 s := by
  induction u with
  | nil => rfl
  | cons b u ih => exact ih

theorem scanFrom_miss {is : List Item} {c : Byte} {s : Bytes}
    (h : matchHere is (c :: s) = none) :
    scanFrom is 0 (c :: s) = .copy c :: scanFrom is 0 s := by
  rw [scanFrom, h]

theorem scanFrom_hit {is : List Item} {s : Bytes} {m : Match} (h : matchHere is s = some m)
    (hm : m.whole ≠ []) : scanFrom is 0 s = .hit m :: scanFrom is 0 m.after := by
  have hs := matchHere_append h
  obtain ⟨b, u, hw⟩ := List.exists_cons_of_ne_nil hm
  rw [hw, List.cons_append] at hs
  subst hs
  rw [scanFrom, h]
  simp only [hw]
  rw [scanFrom_skip]

theorem scanFrom_nil {is : List Item} (h : matchHere is [] = none) : scanFrom is 0 [] = [] := by
  rw [scanFrom, h]

/-- What the loop copies and replaces comes from the subject. -/
theorem scanFrom_mem {is : List Item} {k : Nat} {s : Bytes} {piece : Piece}
    (h : piece ∈ scanFrom is k s) :
    (∃ b ∈ s, piece = .copy b) ∨ ∃ v m, v <:+ s ∧ matchHere is v = some m ∧ piece = .hit m := by
  induction s generalizing k with
  | nil =>
    cases k with
    | succ k => simp [scanFrom] at h
    | zero =>
      rw [scanFrom] at h
      cases hm : matchHere is [] with
      | none => simp [hm] at h
      | some m => exact .inr ⟨[], m, List.suffix_rfl, hm, by simpa [hm] using h⟩
  | cons b s ih =>
    have up : ∀ {k}, piece ∈ scanFrom is k s → (∃ c ∈ b :: s, piece = .copy c) ∨
        ∃ v m, v <:+ b :: s ∧ matchHere is v = some m ∧ piece = .hit m := by
      intro k hk
      rcases ih hk with ⟨c, hc, rfl⟩ | ⟨v, m, hv, hm, rfl⟩
      · exact .inl ⟨c, by simp [hc], rfl⟩
      · exact .inr ⟨v, m, hv.trans (List.suffix_cons b s), hm, rfl⟩
    cases k with
    | succ k => exact up h
    | zero =>
      rw [scanFrom] at h
      cases hm : matchHere is (b :: s) with
      | none =>
        simp only [hm, List.mem_cons] at h
        rcases h with rfl | h
        · exact .inl ⟨b, by simp, rfl⟩
        · exact up h
      | some m =>
        simp only [hm] at h
        cases hw : m.whole with
        | nil =>
          simp only [hw, List.mem_cons] at h
          rcases h with rfl | rfl | h
          · exact .inr ⟨b :: s, m, List.suffix_rfl, hm, rfl⟩
          · exact .inl ⟨b, by simp, rfl⟩
          · exact up h
        | cons c u =>
          simp only [hw, List.mem_cons] at h
          rcases h with rfl | h
          · exact .inr ⟨b :: s, m, List.suffix_rfl, hm, rfl⟩
          · exact up h

/-- Bytes of a replaced text come from the text or from a replacement. -/
theorem replaceAll_bytes {P : Byte → Prop} {is : List Item} {f : Match → Bytes} {s : Bytes}
    (hs : ∀ b ∈ s, P b)
    (hf : ∀ m : Match, (∀ b ∈ m.whole, P b) → (∀ t ∈ m.captures, ∀ b ∈ t, P b) → ∀ b ∈ f m, P b) :
    ∀ b ∈ replaceAll ⟨false, is⟩ f s, P b := by
  intro b hb
  obtain ⟨piece, hpiece, hb⟩ := List.mem_flatMap.mp hb
  rcases scanFrom_mem hpiece with ⟨c, hc, rfl⟩ | ⟨v, m, hv, hm, rfl⟩
  · obtain rfl := List.mem_singleton.mp hb
    exact hs _ hc
  · obtain ⟨hwhole, hcaps⟩ := matchHere_bytes hm fun b hb => hs b (hv.subset hb)
    exact hf m hwhole hcaps b hb

section
variable {is : List Item} {f : Match → Bytes}

theorem replaceAll_nil (h : matchHere is [] = none) : replaceAll ⟨false, is⟩ f [] = [] := by
  simp [replaceAll, scan, scanFrom_nil h]

theorem replaceAll_miss {c : Byte} {s : Bytes} (h : matchHere is (c :: s) = none) :
    replaceAll ⟨false, is⟩ f (c :: s) = c :: replaceAll ⟨false, is⟩ f s := by
  simp [replaceAll, scan, scanFrom_miss h]

theorem replaceAll_hit {s : Bytes} {m : Match} (h : matchHere is s = some m)
    (hm : m.whole ≠ []) :
    replaceAll ⟨false, is⟩ f s = f m ++ replaceAll ⟨false, is⟩ f m.after := by
  simp [replaceAll, scan, scanFrom_hit h hm]

theorem gfind_nil (h : matchHere is [] = none) : gfind ⟨false, is⟩ [] = [] := by
  simp [gfind, allMatches, scan, scanFrom_nil h]

theorem gfind_miss {c : Byte} {s : Bytes} (h : matchHere is (c :: s) = none) :
    gfind ⟨false, is⟩ (c :: s) = gfind ⟨false, is⟩ s := by
  simp [gfind, allMatches, scan, scanFrom_miss h, List.filterMap_cons, Piece.hit?]

theorem gfind_hit {s : Bytes} {m : Match} (h : matchHere is s = some m) (hm : m.whole ≠ []) :
    gfind ⟨false, is⟩ s = m.captures :: gfind ⟨false, is⟩ m.after := by
  simp [gfind, allMatches, scan, scanFrom_hit h hm, Piece.hit?]

end

/-! ### Patterns of one single-byte item -/

/-- A replacement string without `%` stands for itself. -/
theorem addS_plain (m : Match) {repl : Bytes} (h : ch '%' ∉ repl) : addS m repl = repl := by
  induction repl with
  | nil => rfl
  | cons b s ih =>
    have hb : b ≠ ch '%' := fun hb => h (by simp [hb])
    cases s with
    | nil => simp [addS, hb]
    | cons d s => rw [addS, if_neg hb, ih fun hs => h (List.mem_cons_of_mem b hs)]

theorem matchHere_single (c : Single) (b : Byte) (s : Bytes) :
    matchHere [.single c .one] (b :: s) =
      if singleMatch b c then some ⟨[b], [[b]], s⟩ else none := by
  by_cases h : singleMatch b c = true
  · rw [if_pos h]
    have hd : doMatch [.single c .one] [] ([b] ++ s) = some (s, []) := by
      simp [doMatch, expand, h]
    exact matchHere_of_doMatch hd
  · rw [if_neg h]
    exact matchHere_eq_none (by simp [doMatch, expand, h])

theorem replaceAll_single (c : Single) (f : Match → Bytes) (g : Byte → Bytes)
    (hg : ∀ b s, singleMatch b c → f ⟨[b], [[b]], s⟩ = g b) (s : Bytes) :
    replaceAll ⟨false, [.single c .one]⟩ f s =
      s.flatMap fun b => if singleMatch b c then g b else [b] := by
  induction s with
  | nil => exact replaceAll_nil rfl
  | cons b s ih =>
    have hm := matchHere_single c b s
    by_cases h : singleMatch b c = true
    · rw [if_pos h] at hm
      rw [replaceAll_hit hm (by simp), ih, hg b s h]
      simp [h]
    · rw [if_neg h] at hm
      rw [replaceAll_miss hm, ih]
      simp [h]

/-- Every byte of the class is replaced by the same text. -/
theorem gsubStr_single (c : Single) {repl : Bytes} (h : ch '%' ∉ repl) (s : Bytes) :
    gsubStr ⟨false, [.single c .one]⟩ repl s =
      s.flatMap fun b => if singleMatch b c then repl else [b] :=
  replaceAll_single c _ _ (fun _ _ _ => addS_plain _ h) s

end Lua
