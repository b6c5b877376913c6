import MoonWiki.Lua.Parts

/-! Texts inside a text that a substitution leaves whole. -/
namespace Lua

variable {s t : Bytes} {is : List Item} {f : Match → Bytes} {m : Match}

/-- A run of bytes that no match begins with is kept. -/
theorem replaceAll_solid (h : ∀ b ∈ t, ∀ v, matchHere is (b :: v) = none) (v : Bytes) :
    replaceAll ⟨false, is⟩ f (t ++ v) = t ++ replaceAll ⟨false, is⟩ f v := by
  induction t with
  | nil => rfl
  | cons b t ih =>
    rw [List.cons_append, replaceAll_miss (h b (List.mem_cons_self ..) _),
      ih fun c hc => h c (List.mem_cons_of_mem _ hc)]
    rfl

/-- The text is kept where no match begins in it, none ends in it, and what stands for a match
around it has it. -/
theorem replaceAll_infix (hmin : 0 < minLength is)
    (hstart : ∀ b ∈ t, ∀ v, matchHere is (b :: v) = none)
    (hend : ∀ v m, matchHere is v = some m → ∀ a y, m.whole = a ++ y → y <+: t → y = [])
    (haround : ∀ v m, matchHere is v = some m → t <:+: m.whole → t <:+: f m) (h : t <:+: s) :
    t <:+: replaceAll ⟨false, is⟩ f s := by
  obtain ⟨a, z, rfl⟩ := h
  rw [List.append_assoc]
  induction hn : a.length using Nat.strong_induction_on generalizing a with
  | _ n ih =>
    cases a with
    | nil =>
      rw [List.nil_append, replaceAll_solid hstart]
      exact (List.prefix_append t _).isInfix
    | cons b a =>
      rw [List.length_cons] at hn
      cases hm : matchHere is (b :: (a ++ (t ++ z))) with
      | none =>
        rw [List.cons_append, replaceAll_miss hm]
        exact (ih a.length (by omega) a rfl).trans (List.suffix_cons _ _).isInfix
      | some m =>
        have hne := List.length_pos_of_ne_nil (matchHere_nonempty hmin hm)
        have hsplit : m.whole ++ m.after = (b :: a) ++ (t ++ z) := matchHere_append hm
        rw [List.cons_append, replaceAll_hit hm (matchHere_nonempty hmin hm)]
        have hafter : ∀ x, m.after = x ++ (t ++ z) → x.length < n →
            t <:+: f m ++ replaceAll ⟨false, is⟩ f m.after := by
          intro x hx hlen
          rw [hx]
          exact (ih x.length hlen x rfl).trans (List.suffix_append _ _).isInfix
        rcases List.append_eq_append_iff.mp hsplit with ⟨x, hx, hx'⟩ | ⟨y, hy, hy'⟩
        · have hlength := congrArg List.length hx
          rw [List.length_cons, List.length_append] at hlength
          exact hafter x hx' (by omega)
        · rcases List.append_eq_append_iff.mp hy' with ⟨w, rfl, _⟩ | ⟨w, htw, hw⟩
          · have hwhole : t <:+: m.whole := ⟨b :: a, w, by rw [hy, List.append_assoc]⟩
            exact (haround _ m hm hwhole).trans (List.prefix_append _ _).isInfix
          · have hnil := hend _ m hm _ y hy ⟨w, htw.symm⟩
            rw [hnil, List.nil_append] at hy'
            exact hafter [] hy'.symm (by rw [List.length_nil]; omega)

/-! ### Bytes that no match has -/

section
variable {d : Byte} {a z : Bytes}

/-- A match ends before a byte that it cannot have. -/
theorem match_before (hd : ∀ i ∈ is, i.takes d = false)
    (hm : matchHere is (a ++ d :: z) = some m) :
    ∃ x, a = m.whole ++ x ∧ m.after = x ++ d :: z := by
  have hsplit : m.whole ++ m.after = a ++ d :: z := matchHere_append hm
  rcases List.append_eq_append_iff.mp hsplit with ⟨x, hx, hx'⟩ | ⟨y, hy, hy'⟩
  · exact ⟨x, hx, hx'⟩
  · cases y with
    | nil => exact ⟨[], by simpa using hy.symm, by simpa using hy'.symm⟩
    | cons b y =>
      obtain ⟨rfl, _⟩ := List.cons.inj hy'
      obtain ⟨i, hi, htakes⟩ := (matchHere_takes hm).1 d (by simp [hy])
      rw [hd i hi] at htakes
      cases htakes

theorem matchHere_not_taken (hmin : 0 < minLength is) (hd : ∀ i ∈ is, i.takes d = false)
    (v : Bytes) : matchHere is (d :: v) = none := by
  cases hm : matchHere is (d :: v) with
  | none => rfl
  | some m =>
    obtain ⟨x, hx, _⟩ := match_before (a := []) hd hm
    exact absurd (List.append_eq_nil_iff.mp hx.symm).1 (matchHere_nonempty hmin hm)

/-- What follows such a text is replaced by itself. -/
theorem replaceAll_apart (hmin : 0 < minLength is) (hd : ∀ i ∈ is, i.takes d = false)
    (hstart : ∀ b ∈ d :: t, ∀ v, matchHere is (b :: v) = none) (f : Match → Bytes) (a z : Bytes) :
    ∃ a', replaceAll ⟨false, is⟩ f (a ++ (d :: t ++ z)) =
      a' ++ (d :: t ++ replaceAll ⟨false, is⟩ f z) := by
  induction hn : a.length using Nat.strong_induction_on generalizing a with
  | _ n ih =>
    cases a with
    | nil => exact ⟨[], replaceAll_solid hstart z⟩
    | cons b a =>
      rw [List.length_cons] at hn
      cases hm : matchHere is (b :: (a ++ (d :: t ++ z))) with
      | none =>
        obtain ⟨a', ha'⟩ := ih a.length (by omega) a rfl
        exact ⟨b :: a', by rw [List.cons_append, replaceAll_miss hm, ha']; rfl⟩
      | some m =>
        obtain ⟨x, hx, hafter⟩ := match_before (a := b :: a) (z := t ++ z) hd hm
        have hpos := List.length_pos_of_ne_nil (matchHere_nonempty hmin hm)
        have hlength := congrArg List.length hx
        rw [List.length_cons, List.length_append] at hlength
        obtain ⟨a', ha'⟩ := ih x.length (by omega) x rfl
        refine ⟨f m ++ a', ?_⟩
        rw [List.cons_append, replaceAll_hit hm (matchHere_nonempty hmin hm), hafter,
          ← List.cons_append, ha', List.append_assoc]

/-- A text is kept when no match has its first byte or begins with one of its bytes. -/
theorem replaceAll_infix_head {p : Pattern} (hd : ∀ i ∈ p.items, i.takes d = false)
    (hstart : p.anchor = false → 0 < minLength p.items ∧
      ∀ b ∈ d :: t, ∀ v, matchHere p.items (b :: v) = none)
    (f : Match → Bytes) (h : d :: t <:+: s) : d :: t <:+: replaceAll p f s := by
  obtain ⟨a, z, rfl⟩ := h
  rw [List.append_assoc]
  obtain ⟨anchor, is⟩ := p
  cases anchor with
  | false =>
    obtain ⟨hmin, hstart⟩ := hstart rfl
    obtain ⟨a', ha'⟩ := replaceAll_apart hmin hd hstart f a z
    exact ⟨a', replaceAll ⟨false, is⟩ f z, by rw [ha', List.append_assoc]⟩
  | true =>
    rw [replaceAll_anchor]
    cases hm : matchHere is (a ++ (d :: t ++ z)) with
    | none => exact ⟨a, z, List.append_assoc ..⟩
    | some m =>
      obtain ⟨x, _, hafter⟩ := match_before (z := t ++ z) hd hm
      refine ⟨f m ++ x, z, ?_⟩
      simp [hafter]

theorem replaceAll_infix_apart {p : Pattern} (hmin : 0 < minLength p.items) (hne : t ≠ [])
    (ht : ∀ b ∈ t, ∀ i ∈ p.items, i.takes b = false) (f : Match → Bytes) (h : t <:+: s) :
    t <:+: replaceAll p f s := by
  obtain ⟨d, t, rfl⟩ := List.exists_cons_of_ne_nil hne
  refine replaceAll_infix_head (ht d (List.mem_cons_self ..)) (fun _ => ⟨hmin, fun b hb => ?_⟩) f h
  exact matchHere_not_taken hmin (ht b hb)

/-- A byte that is in neither the text nor the replacement. -/
theorem not_mem_gsubStr {p : Pattern} {repl : Bytes} {x : Byte} (hrepl : x ∉ plainBytes repl)
    (hs : x ∉ s) : x ∉ gsubStr p repl s := by
  intro hx
  rcases mem_replaceAll hx with hx | ⟨v, m, hv, hm, hx⟩
  · exact hs hx
  · have hbytes := matchHere_bytes (P := fun b => b ≠ x) hm
      fun b hb heq => hs (hv.subset (heq ▸ hb))
    rcases addS_mem hx with hx | ⟨u, hu, hx⟩ | hx
    · exact hbytes.1 x hx rfl
    · exact hbytes.2 u hu x hx rfl
    · exact hrepl hx

end

/-! ### Replacements that keep the text between two marks -/

/-- A text without a byte of a mark is before it or after it. -/
theorem infix_of_apart {u v bs : Bytes} (hne : bs ≠ []) (hbs : ∀ b ∈ t, b ∉ bs)
    (h : t <:+: u ++ (bs ++ v)) : t <:+: u ∨ t <:+: v := by
  induction bs generalizing u with
  | nil => exact absurd rfl hne
  | cons b bs ih =>
    have hb : b ∉ t := fun hmem => hbs b hmem (List.mem_cons_self ..)
    rcases infix_split hb h with hu | hv
    · exact .inl hu
    · cases bs with
      | nil => exact .inr hv
      | cons d bs =>
        have hrest := ih (u := []) (List.cons_ne_nil _ _)
          (fun c hc hmem => hbs c hc (List.mem_cons_of_mem _ hmem)) hv
        rcases hrest with hnil | hv
        · exact .inr (hnil.trans List.nil_infix)
        · exact .inr hv

theorem gsubStr_between_infix {l r opening closing : Bytes} {cs : List Item}
    (hcs : ∀ i ∈ cs, i.isSingle = true) (hl : l ≠ []) (hr : r ≠ []) (htl : ∀ b ∈ t, b ∉ l)
    (htr : ∀ b ∈ t, b ∉ r) (hopening : ch '%' ∉ opening) (hclosing : ch '%' ∉ closing)
    (h : t <:+: s) :
    t <:+: gsubStr ⟨false, [Segment.lit l, .cap cs, .lit r].flatMap Segment.items⟩
      (opening ++ (str "%1" ++ closing)) s := by
  obtain ⟨d, l, rfl⟩ := List.exists_cons_of_ne_nil hl
  have hsegs : ∀ seg ∈ [Segment.lit (d :: l), .cap cs, .lit r], seg.isSimple = true := by
    simpa [Segment.isSimple] using hcs
  have hparts : ∀ {v m}, matchHere ([Segment.lit (d :: l), .cap cs, .lit r].flatMap Segment.items) v =
      some m → ∃ u, m.whole = (d :: l) ++ (u ++ (r ++ [])) ∧ m.captures = [u] := by
    intro v m hm
    obtain ⟨ts, ⟨x, hwhole, u, y, us, rfl, rfl, _, z, rfl, rfl, rfl⟩, hts⟩ :=
      matchHere_fills hsegs hm
    exact ⟨u, hwhole, hts (List.cons_ne_nil _ _)⟩
  refine replaceAll_infix ?_ ?_ ?_ ?_ h
  · simp only [Segment.items, literalItems, minLength, List.flatMap_cons, List.map_cons,
      List.cons_append, List.sum_cons]
    exact Nat.add_pos_left Nat.one_pos _
  · intro b hb v
    cases hm : matchHere ([Segment.lit (d :: l), .cap cs, .lit r].flatMap Segment.items) (b :: v) with
    | none => rfl
    | some m =>
      obtain ⟨u, hwhole, _⟩ := hparts hm
      have hsplit := matchHere_append hm
      rw [hwhole] at hsplit
      obtain rfl : d = b := (List.cons.inj hsplit).1
      exact absurd (List.mem_cons_self ..) (htl d hb)
  · intro v m hm a y hy hfront
    obtain ⟨u, hwhole, _⟩ := hparts hm
    rcases List.eq_nil_or_concat y with hnil | ⟨y', b, hconcat⟩
    · exact hnil
    · rw [List.concat_eq_append] at hconcat
      subst hconcat
      have hlast : b ∈ r := by
        have hget := congrArg List.getLast? (hwhole.symm.trans hy)
        simp only [List.append_nil, List.getLast?_append_of_ne_nil _ hr, ← List.append_assoc,
          List.getLast?_concat] at hget
        exact List.mem_of_getLast? hget
      exact absurd hlast (htr b (hfront.subset (by simp)))
  · intro v m hm hinfix
    obtain ⟨u, hwhole, hcaptures⟩ := hparts hm
    have hpercent : opening.getLast? ≠ some (ch '%') :=
      fun hget => hopening (List.mem_of_getLast? hget)
    rw [hwhole] at hinfix
    rw [addS_append m hpercent, addS_append m (by decide), addS_plain m hopening, addS_capture,
      addS_plain m hclosing, hcaptures]
    have hbody : t <:+: u := by
      rcases infix_of_apart (u := []) hl htl hinfix with hnil | hrest
      · exact hnil.trans List.nil_infix
      · rcases infix_of_apart hr htr hrest with hu | hnil
        · exact hu
        · exact hnil.trans List.nil_infix
    exact hbody.trans ⟨opening, closing, by simp⟩

/-- What stands for a literal text is in the text. -/
theorem gsubStr_literal_infix {bs repl : Bytes} (hrepl : ch '%' ∉ repl) (h : bs <:+: s) :
    repl <:+: gsubStr ⟨false, literalItems bs⟩ repl s := by
  have hhit : ¬ (⟨false, literalItems bs⟩ : Pattern).Misses s := by
    obtain ⟨u, v, rfl⟩ := h
    intro hmiss
    have hnone := hmiss (bs ++ v) ⟨u, by simp⟩ (by simp)
    rw [matchHere_literal, if_pos (List.prefix_append bs v)] at hnone
    cases hnone
  obtain ⟨m, hm⟩ := exists_hit hhit
  have hadd : addS m repl = repl := addS_plain m hrepl
  rw [gsubStr, replaceAll, List.flatMap]
  refine List.infix_of_mem_flatten (List.mem_map.mpr ⟨.hit m, hm, hadd⟩)

theorem EndsIn.getLast {p : Byte → Bool} {s : Bytes} (h : EndsIn p s) :
    ∃ b, s.getLast? = some b ∧ p b = true := by
  obtain ⟨u, b, rfl, hb⟩ := h
  exact ⟨b, List.getLast?_concat .., hb⟩

theorem EndsIn.of_getLast {p : Byte → Bool} {s : Bytes} {b : Byte} (h : s.getLast? = some b)
    (hb : p b = true) : EndsIn p s := by
  obtain ⟨u, rfl⟩ := List.getLast?_eq_some_iff.mp h
  exact ⟨u, b, rfl, hb⟩

/-! ### Matches at the end only -/

theorem matchHere_eos (h : matchHere (is ++ [.eos]) s = some m) : m.after = [] := by
  obtain ⟨⟨r, c⟩, hm, rfl⟩ := Option.map_eq_some_iff.mp h
  obtain ⟨caps, v, _, hv⟩ := doMatch_append_sound hm
  rw [doMatch] at hv
  split_ifs at hv with hnil
  subst hnil
  exact (Prod.mk.inj (Option.some.inj hv)).1.symm

/-- Before a byte that no match takes nothing is replaced. -/
theorem replaceAll_end {x : Byte} (hx : ∀ i ∈ is, i.takes x = false) (u v : Bytes) :
    replaceAll ⟨false, is ++ [.eos]⟩ f (u ++ x :: v) =
      u ++ x :: replaceAll ⟨false, is ++ [.eos]⟩ f v := by
  have hmiss : ∀ w : Bytes, x ∈ w → matchHere (is ++ [.eos]) w = none := by
    intro w hw
    cases hm : matchHere (is ++ [.eos]) w with
    | none => rfl
    | some m =>
      have hwhole := matchHere_append hm
      rw [matchHere_eos hm, List.append_nil] at hwhole
      obtain ⟨i, hi, htakes⟩ := (matchHere_takes hm).1 x (by simp [hwhole, hw])
      rcases List.mem_append.mp hi with hi | hi
      · rw [hx i hi] at htakes
        cases htakes
      · obtain rfl := List.mem_singleton.mp hi
        cases htakes
  induction u with
  | nil => exact replaceAll_miss (hmiss _ (List.mem_cons_self ..))
  | cons b u ih =>
    rw [List.cons_append, replaceAll_miss (hmiss (b :: (u ++ x :: v)) (by simp)), ih]
    rfl

end Lua
