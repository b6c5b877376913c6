import MoonWiki.Lua.Parts

/-! Replacing the runs of one byte. -/
namespace Lua

variable {c b : Byte} {r s u v : Bytes}

/-- The text does not begin with this byte. -/
def Free (c : Byte) (v : Bytes) : Prop := ∀ b t, v = b :: t → b ≠ c

theorem Free.append (hu : Free c u) (hv : Free c v) : Free c (u ++ v) := by
  cases u with
  | nil => exact hv
  | cons d u =>
    intro b t h
    exact hu b u (congrArg (· :: u) (List.cons.inj h).1)

theorem Free.of_ne (hb : b ≠ c) (v : Bytes) : Free c (b :: v) := by
  intro d t h
  obtain ⟨rfl, _⟩ := List.cons.inj h
  exact hb

/-- A text as its single bytes and its runs of two or more. -/
inductive RunView (c : Byte) : Bytes → Prop
  | nil : RunView c []
  | other {b : Byte} {t : Bytes} : b ≠ c → RunView c t → RunView c (b :: t)
  | one {v : Bytes} : Free c v → RunView c v → RunView c (c :: v)
  | many (n : Nat) {v : Bytes} : Free c v → RunView c v →
      RunView c (List.replicate (n + 2) c ++ v)

theorem runView (c : Byte) (s : Bytes) : RunView c s := by
  induction hn : s.length using Nat.strong_induction_on generalizing s with
  | _ n ih =>
    obtain ⟨u, v, rfl, hu, hv⟩ := exists_run (· == c) s
    have hfree : Free c v := fun b t hb => by simpa using hv b t hb
    have hu' : u = List.replicate u.length c :=
      List.eq_replicate_iff.mpr ⟨rfl, fun b hb => by simpa using hu b hb⟩
    rw [List.length_append] at hn
    generalize hk : u.length = k at hu' hn
    subst hu'
    rcases k with _ | _ | k
    · cases v with
      | nil => exact .nil
      | cons b t => exact .other (hfree b t rfl) (ih t.length (by simp [← hn]) t rfl)
    · exact .one hfree (ih v.length (by omega) v rfl)
    · exact .many k hfree (ih v.length (by omega) v rfl)

/-! ### The pass -/

/-- The items of the pattern for runs of two bytes or more. -/
def runsOf (c : Byte) : List Item :=
  [.startCapture, .single (.lit c) .one, .single (.lit c) .plus, .endCapture]

/-- Every run of two bytes or more replaced. -/
def gsubRuns (c : Byte) (r s : Bytes) : Bytes := replaceAll ⟨false, runsOf c⟩ (fun _ => r) s

theorem gsubStr_runs (hr : ch '%' ∉ r) (c : Byte) (s : Bytes) :
    gsubStr ⟨false, runsOf c⟩ r s = gsubRuns c r s := by
  have hplain : (fun m => addS m r) = fun _ => r := funext fun m => addS_plain m hr
  rw [gsubStr, gsubRuns, hplain]

theorem singleMatch_lit (b c : Byte) : singleMatch b (.lit c) = true ↔ b = c := by
  rw [singleMatch, beq_iff_eq, eq_comm]

@[simp] theorem gsubRuns_nil (c : Byte) (r : Bytes) : gsubRuns c r [] = [] :=
  replaceAll_nil (matchHere_nil (Nat.succ_pos 1))

theorem gsubRuns_other (hb : b ≠ c) (r s : Bytes) :
    gsubRuns c r (b :: s) = b :: gsubRuns c r s := by
  have hmiss : matchHere (runsOf c) (b :: s) = none :=
    matchHere_head (c := .lit c) rfl fun d t hd => by
      obtain ⟨rfl, _⟩ := List.cons.inj hd
      exact Bool.eq_false_iff.mpr fun h => hb ((singleMatch_lit _ _).mp h)
  exact replaceAll_miss hmiss

theorem gsubRuns_run (n : Nat) (hv : Free c v) (r : Bytes) :
    gsubRuns c r (List.replicate (n + 2) c ++ v) = r ++ gsubRuns c r v := by
  have hc : singleMatch c (.lit c) = true := (singleMatch_lit c c).mpr rfl
  have hrun : ∀ b t, v = b :: t → singleMatch b (.lit c) = false := fun b t hb =>
    Bool.eq_false_iff.mpr fun h => hv b t hb ((singleMatch_lit _ _).mp h)
  have hd : doMatch (runsOf c) [] (List.replicate (n + 2) c ++ v) =
      some (v, [.done (List.replicate (n + 2) c)]) := by
    rw [runsOf, doMatch, List.replicate_succ, List.cons_append, doMatch_one hc]
    refine doMatch_plus (by simp) (fun b hb => ?_) hrun ?_
    · rw [List.eq_of_mem_replicate hb]
      exact hc
    · exact doMatch_endCapture (c :: List.replicate (n + 1) c) v
  exact replaceAll_hit (matchHere_of_doMatch hd) (by simp)

theorem gsubRuns_one (hv : Free c v) (r : Bytes) : gsubRuns c r (c :: v) = c :: gsubRuns c r v := by
  have hmiss : matchHere (runsOf c) (c :: v) = none :=
    matchHere_pair (c := .lit c) (d := .lit c) rfl fun b e t hsplit _ =>
      Bool.eq_false_iff.mpr fun h =>
        hv e t (List.cons.inj hsplit).2 ((singleMatch_lit _ _).mp h)
  exact replaceAll_miss hmiss

/-- Without the byte there is no run. -/
theorem gsubRuns_absent (hu : c ∉ u) (r v : Bytes) :
    gsubRuns c r (u ++ v) = u ++ gsubRuns c r v := by
  induction u with
  | nil => rfl
  | cons b u ih =>
    have hb : b ≠ c := fun h => hu (by simp [h])
    rw [List.cons_append, gsubRuns_other hb, ih fun h => hu (List.mem_cons_of_mem _ h),
      List.cons_append]

/-- A run ends where another byte begins. -/
theorem gsubRuns_append (hv : Free c v) (r u : Bytes) :
    gsubRuns c r (u ++ v) = gsubRuns c r u ++ gsubRuns c r v := by
  induction runView c u with
  | nil => simp
  | other hb _ ih => rw [List.cons_append, gsubRuns_other hb, ih, gsubRuns_other hb,
      List.cons_append]
  | one hfree _ ih =>
    rw [List.cons_append, gsubRuns_one (hfree.append hv), ih, gsubRuns_one hfree, List.cons_append]
  | many n hfree _ ih =>
    rw [List.append_assoc, gsubRuns_run n (hfree.append hv), ih, gsubRuns_run n hfree,
      List.append_assoc]

/-- Two bytes at the head belong to a run. -/
theorem gsubRuns_double (c : Byte) (r u : Bytes) : ∃ w, gsubRuns c r (c :: c :: u) = r ++ w := by
  obtain ⟨a, v, rfl, ha, hv⟩ := exists_run (· == c) u
  have hfree : Free c v := fun b t hb => by simpa using hv b t hb
  have ha' : a = List.replicate a.length c :=
    List.eq_replicate_iff.mpr ⟨rfl, fun b hb => by simpa using ha b hb⟩
  have hsplit : c :: c :: (a ++ v) = List.replicate (a.length + 2) c ++ v := by
    rw [List.replicate_succ, List.replicate_succ, ← ha']
    rfl
  exact ⟨_, by rw [hsplit, gsubRuns_run _ hfree]⟩

/-- Two bytes at the end belong to a run. -/
theorem gsubRuns_end (c : Byte) (r u : Bytes) : ∃ w, gsubRuns c r (u ++ [c, c]) = w ++ r := by
  have hfree : Free c [] := fun b t h => by cases h
  have hrun : ∀ n, gsubRuns c r (List.replicate (n + 2) c) = r := by
    intro n
    simpa using gsubRuns_run n hfree r
  induction runView c u with
  | nil => exact ⟨[], hrun 0⟩
  | @other b t hb _ ih =>
    obtain ⟨w, hw⟩ := ih
    exact ⟨b :: w, by rw [List.cons_append, gsubRuns_other hb, hw, List.cons_append]⟩
  | @one v hv _ ih =>
    cases v with
    | nil => exact ⟨[], hrun 1⟩
    | cons b t =>
      obtain ⟨w, hw⟩ := ih
      have hfree' : Free c (b :: t ++ [c, c]) := Free.of_ne (hv b t rfl) _
      exact ⟨c :: w, by rw [List.cons_append, gsubRuns_one hfree', hw, List.cons_append]⟩
  | @many n v hv _ ih =>
    cases v with
    | nil =>
      refine ⟨[], ?_⟩
      have hsplit : List.replicate (n + 2) c ++ [] ++ [c, c] = List.replicate (n + 2 + 2) c := by
        rw [List.append_nil, List.replicate_add (n + 2) 2]
        rfl
      rw [hsplit]
      exact hrun (n + 2)
    | cons b t =>
      obtain ⟨w, hw⟩ := ih
      have hfree' : Free c (b :: t ++ [c, c]) := Free.of_ne (hv b t rfl) _
      exact ⟨r ++ w, by rw [List.append_assoc, gsubRuns_run n hfree', hw, List.append_assoc]⟩

/-- A byte at the end of a text that does not end in it belongs to no run. -/
theorem gsubRuns_concat (hu : ∀ w, u ≠ w ++ [c]) (r : Bytes) :
    gsubRuns c r (u ++ [c]) = gsubRuns c r u ++ [c] := by
  have hfree : Free c [] := fun b t h => by cases h
  have htail : ∀ {a v : Bytes}, (∀ w, a ++ v ≠ w ++ [c]) → ∀ w, v ≠ w ++ [c] :=
    fun {a v} h w hw => h (a ++ w) (by rw [hw, List.append_assoc])
  induction runView c u with
  | nil => simp [gsubRuns_one hfree]
  | @other b t hb _ ih =>
    rw [List.cons_append, gsubRuns_other hb, ih (htail (a := [b]) hu), gsubRuns_other hb,
      List.cons_append]
  | @one v hv _ ih =>
    cases v with
    | nil => exact absurd rfl (hu [])
    | cons b t =>
      have hfree' : Free c (b :: t ++ [c]) := Free.of_ne (hv b t rfl) _
      rw [List.cons_append, gsubRuns_one hfree', ih (htail (a := [c]) hu), gsubRuns_one hv,
        List.cons_append]
  | @many n v hv _ ih =>
    cases v with
    | nil =>
      refine absurd ?_ (hu (List.replicate (n + 1) c))
      rw [List.append_nil, ← List.replicate_succ']
    | cons b t =>
      have hfree' : Free c (b :: t ++ [c]) := Free.of_ne (hv b t rfl) _
      rw [List.append_assoc, gsubRuns_run n hfree', ih (htail hu), gsubRuns_run n hv,
        List.append_assoc]

/-- A single byte is left between what is around it. -/
theorem gsubRuns_single (hu : ∀ w, u ≠ w ++ [c]) (hv : Free c v) (r : Bytes) :
    gsubRuns c r (u ++ c :: v) = gsubRuns c r u ++ c :: gsubRuns c r v := by
  have hsplit : u ++ c :: v = (u ++ [c]) ++ v := by simp
  rw [hsplit, gsubRuns_append hv, gsubRuns_concat hu, List.append_assoc]
  rfl

/-! ### Runs cut to two bytes -/

/-- When two bytes stand for the replacement, it does not matter whether they are escaped before
or after the pass. -/
theorem gsubRuns_flatMap {e : Byte → Bytes} (h : r.flatMap e = e c ++ e c) (s : Bytes) :
    (gsubRuns c r s).flatMap e = (gsubRuns c [c, c] s).flatMap e := by
  induction runView c s with
  | nil => simp
  | other hb _ ih => simp [gsubRuns_other hb, ih]
  | one hv _ ih => simp [gsubRuns_one hv, ih]
  | many n hv _ ih => simp [gsubRuns_run n hv, ih, h]

theorem infix_three_cons (hp : ¬ [c, c, c] <+: b :: s) :
    [c, c, c] <:+: b :: s ↔ [c, c, c] <:+: s := by
  rw [List.infix_cons_iff, or_iff_right hp]

theorem not_prefix_three (hu : u.length < 3) (hv : Free c v) : ¬ [c, c, c] <+: u ++ v := by
  rintro ⟨t, ht⟩
  rcases List.append_eq_append_iff.mp ht with ⟨y, rfl, _⟩ | ⟨y, hy, hvy⟩
  · rw [List.length_append] at hu
    exact absurd hu (by simp)
  · cases y with
    | nil =>
      rw [List.append_nil] at hy
      rw [← hy] at hu
      exact absurd hu (by simp)
    | cons d y => exact hv d _ hvy (by
        have hd : d ∈ [c, c, c] := by simp [hy]
        simpa using hd)

/-- Exactly the runs of three or more get shorter. -/
theorem gsubRuns_cases (c : Byte) (s : Bytes) :
    (¬ [c, c, c] <:+: s → gsubRuns c [c, c] s = s) ∧
      (gsubRuns c [c, c] s).count c ≤ s.count c ∧
      ([c, c, c] <:+: s → (gsubRuns c [c, c] s).count c < s.count c) := by
  have hnil : Free c [] := fun b t h => by cases h
  induction runView c s with
  | nil => simp
  | @other b t hb _ ih =>
    have hwithin : [c, c, c] <:+: b :: t ↔ [c, c, c] <:+: t :=
      infix_three_cons fun hp => not_prefix_three (u := []) (by simp) (Free.of_ne hb t) hp
    simp only [gsubRuns_other hb, hwithin, List.count_cons_of_ne hb, List.cons.injEq, true_and]
    exact ih
  | @one v hv _ ih =>
    obtain ⟨hsame, hle, hlt⟩ := ih
    have hwithin : [c, c, c] <:+: c :: v ↔ [c, c, c] <:+: v :=
      infix_three_cons fun hp => not_prefix_three (u := [c]) (by simp) hv hp
    simp only [gsubRuns_one hv, hwithin, List.count_cons_self, List.cons.injEq, true_and]
    exact ⟨hsame, by omega, fun h => by have := hlt h; omega⟩
  | @many n v hv _ ih =>
    obtain ⟨hsame, hle, hlt⟩ := ih
    have htwo : [c, c].count c = 2 := by simp
    rw [gsubRuns_run n hv, List.count_append, List.count_append, List.count_replicate_self, htwo]
    cases n with
    | zero =>
      have hfirst : [c, c, c] <:+: c :: c :: v ↔ [c, c, c] <:+: c :: v :=
        infix_three_cons fun hp => not_prefix_three (u := [c, c]) (by simp) hv hp
      have hsecond : [c, c, c] <:+: c :: v ↔ [c, c, c] <:+: v :=
        infix_three_cons fun hp => not_prefix_three (u := [c]) (by simp) hv hp
      have hwithin : [c, c, c] <:+: List.replicate (0 + 2) c ++ v ↔ [c, c, c] <:+: v :=
        hfirst.trans hsecond
      rw [hwithin]
      refine ⟨fun h => ?_, by omega, fun h => ?_⟩
      · rw [hsame h]
        rfl
      · have hcount := hlt h
        omega
    | succ n =>
      have hwithin : [c, c, c] <:+: List.replicate (n + 1 + 2) c ++ v :=
        ⟨[], List.replicate n c ++ v, by
          rw [Nat.add_assoc, Nat.add_comm n, List.replicate_add]
          rfl⟩
      exact ⟨fun h => absurd hwithin h, by omega, fun _ => by omega⟩

end Lua
