import MoonWiki.EmphasisRules

/-! Emphasized words: which of them get an element of their own. -/
namespace MoonWiki
open Lua

variable {rule : StyleRule} {u v w z : Bytes} {b : Byte} {line : Bytes} {env : FormatterEnv}
  {st : FormatterState}

namespace Emphasis
variable {style : Emphasis} {t : Bytes}

/-! ### Lines of words -/

def spacedItems (style : Emphasis) (words : List Bytes) : Bytes :=
  words.flatMap fun w => ch ' ' :: style.item w

def spacedElements (style : Emphasis) (words : List Bytes) : Bytes :=
  words.flatMap fun w => ch ' ' :: style.element w

/-- The words of pairs. -/
def unpaired (pairs : List (Bytes × Bytes)) : List Bytes := pairs.flatMap fun p => [p.1, p.2]

/-- What the first rule makes of pairs of words. -/
def halfDone (style : Emphasis) (pairs : List (Bytes × Bytes)) : Bytes :=
  pairs.flatMap fun p => ch ' ' :: (style.element p.1 ++ ch ' ' :: style.item p.2)

/-- Pairs of words the first of which is not short. -/
def LongPairs (pairs : List (Bytes × Bytes)) : Prop :=
  ∀ p ∈ pairs, 2 ≤ p.1.length ∧ (∀ b ∈ p.1, isEmphasizedByte b = true) ∧
    ∀ b ∈ p.2, isEmphasizedByte b = true

theorem item_solid (hw : ∀ b ∈ w, isEmphasizedByte b = true) :
    ∀ b ∈ style.item w, wordItem.takes b = false := by
  have hmark : ∀ b ∈ str "=*_", wordItem.takes b = false := by decide
  intro b hb
  rw [item] at hb
  rcases List.mem_append.mp hb with hb | hb
  · exact hmark b (style.mark_facts b hb)
  · rcases List.mem_append.mp hb with hb | hb
    · exact (emphasizedByte_facts b (hw b hb)).1
    · exact hmark b (style.mark_facts b hb)

theorem tags_facts (style : Emphasis) :
    (∀ b ∈ style.opening ++ style.closing, wordItem.takes b = false ∧ b ∉ str "=*_") ∧
      ∃ s, style.opening = ch '<' :: s := by
  cases style <;> exact ⟨by decide, _, rfl⟩

theorem element_bytes {P : Byte → Prop} (htags : ∀ b ∈ style.opening ++ style.closing, P b)
    (hw : ∀ b ∈ w, P b) : ∀ b ∈ style.element w, P b := by
  intro b hb
  rw [element_eq] at hb
  rcases List.mem_append.mp hb with hb | hb
  · exact htags b (List.mem_append_left _ hb)
  · rcases List.mem_append.mp hb with hb | hb
    · exact hw b hb
    · exact htags b (List.mem_append_right _ hb)

theorem element_startsIn (style : Emphasis) (w : Bytes) :
    StartsIn (· = ch '<') (style.element w) := by
  obtain ⟨u, hu⟩ := style.tags_facts.2
  rw [element_eq, hu]
  exact ⟨ch '<', _, rfl, rfl⟩

theorem element_solid (hw : ∀ b ∈ w, isEmphasizedByte b = true) :
    ∀ b ∈ style.element w, wordItem.takes b = false :=
  element_bytes (fun b hb => (style.tags_facts.1 b hb).1)
    fun b hb => (emphasizedByte_facts b (hw b hb)).1

/-- No mark begins an element. -/
theorem element_head {s : Bytes} {d : Byte} (h : style.element w ++ s = d :: t) :
    d ∉ str "=*_" := by
  obtain ⟨u, hu⟩ := style.tags_facts.2
  rw [element_eq, hu] at h
  obtain ⟨rfl, _⟩ := List.cons.inj h
  decide

/-- The first rule puts the first word of each pair into its element. -/
theorem long_pairs {pairs : List (Bytes × Bytes)} (h : LongPairs pairs) (z : Bytes) :
    style.long.pass (style.spacedItems (unpaired pairs) ++ ch ' ' :: z) =
      style.halfDone pairs ++ style.long.pass (ch ' ' :: z) := by
  induction pairs with
  | nil => rfl
  | cons p pairs ih =>
    obtain ⟨hlen, hfirst, hsecond⟩ := h p (List.mem_cons_self ..)
    have hrest := ih fun q hq => h q (List.mem_cons_of_mem _ hq)
    have hline : style.spacedItems (unpaired (p :: pairs)) ++ ch ' ' :: z =
        ch ' ' :: (style.item p.1 ++ ch ' ' :: (style.item p.2 ++
          (style.spacedItems (unpaired pairs) ++ ch ' ' :: z))) := by
      simp [spacedItems, unpaired]
    rw [hline, long_word (by decide) (by decide) hfirst hlen,
      StyleRule.pass_skip style.long_mem (item_solid hsecond), hrest]
    simp [halfDone]

/-- The second rule puts the other words into theirs. -/
theorem solid_pairs {pairs : List (Bytes × Bytes)} (h : LongPairs pairs)
    (hz : ∀ d t, z = d :: t → d ∉ str "=*_") :
    style.solid.pass (style.halfDone pairs ++ ch ' ' :: z) =
      style.spacedElements (unpaired pairs) ++ ch ' ' :: style.solid.pass z := by
  induction pairs with
  | nil => exact StyleRule.pass_blank style.solid_mem hz
  | cons p pairs ih =>
    obtain ⟨_, hfirst, hsecond⟩ := h p (List.mem_cons_self ..)
    have hrest := ih fun q hq => h q (List.mem_cons_of_mem _ hq)
    -- the blank after the pair is passed over with it
    have hnext : ∃ r, style.halfDone pairs ++ ch ' ' :: z = ch ' ' :: r ∧
        ∀ d t, r = d :: t → d ∉ str "=*_" := by
      cases pairs with
      | nil => exact ⟨z, rfl, hz⟩
      | cons q pairs =>
        refine ⟨style.element q.1 ++ (ch ' ' :: (style.item q.2 ++
          (style.halfDone pairs ++ ch ' ' :: z))), by simp [halfDone], fun d t => element_head⟩
    obtain ⟨r, hr, hhead⟩ := hnext
    rw [hr, StyleRule.pass_blank style.solid_mem hhead] at hrest
    have hline : style.halfDone (p :: pairs) ++ ch ' ' :: z =
        ch ' ' :: (style.element p.1 ++ ch ' ' :: (style.item p.2 ++ ch ' ' :: r)) := by
      rw [← hr]
      simp [halfDone]
    rw [hline, StyleRule.pass_blank style.solid_mem fun d t => element_head,
      StyleRule.pass_skip style.solid_mem (element_solid hfirst),
      solid_word (by decide) (by decide) hsecond, hrest]
    simp [spacedElements, unpaired]

end Emphasis

/-- Every other word, from the first, has two letters or more. -/
def OddLong : List Bytes → Prop
  | [] => True
  | [w] => 2 ≤ w.length
  | w :: _ :: words => 2 ≤ w.length ∧ OddLong words

/-- Words each of which is found by one of the two rules. -/
def EachApart (words : List Bytes) : Prop := words.length = 1 ∨ OddLong words

def EmphasizedWords (words : List Bytes) : Prop :=
  ∀ w ∈ words, w ≠ [] ∧ ∀ b ∈ w, isEmphasizedByte b = true

theorem oddLong_unpaired {pairs : List (Bytes × Bytes)} (h : Emphasis.LongPairs pairs)
    (rest : List Bytes) : OddLong (Emphasis.unpaired pairs ++ rest) ↔ OddLong rest := by
  induction pairs with
  | nil => rfl
  | cons p pairs ih =>
    have hrest := ih fun q hq => h q (List.mem_cons_of_mem _ hq)
    have hcons : Emphasis.unpaired (p :: pairs) ++ rest =
        p.1 :: p.2 :: (Emphasis.unpaired pairs ++ rest) := rfl
    rw [hcons, OddLong, hrest]
    exact and_iff_right (h p (List.mem_cons_self ..)).1

/-- The pairs before the end of the words or a short one. -/
theorem words_split (words : List Bytes) (h : EmphasizedWords words) : ∃ pairs rest,
    words = Emphasis.unpaired pairs ++ rest ∧ Emphasis.LongPairs pairs ∧
      (rest = [] ∨ (∃ w, rest = [w]) ∨ ∃ w v more, rest = w :: v :: more ∧ w.length < 2) := by
  induction words using OddLong.induct with
  | case1 => exact ⟨[], [], rfl, fun _ hp => absurd hp List.not_mem_nil, .inl rfl⟩
  | case2 w => exact ⟨[], [w], rfl, fun _ hp => absurd hp List.not_mem_nil, .inr (.inl ⟨w, rfl⟩)⟩
  | case3 w v words ih =>
    by_cases hlen : 2 ≤ w.length
    · obtain ⟨pairs, rest, rfl, hpairs, hrest⟩ :=
        ih fun x hx => h x (List.mem_cons_of_mem _ (List.mem_cons_of_mem _ hx))
      refine ⟨(w, v) :: pairs, rest, rfl, fun p hp => ?_, hrest⟩
      rcases List.mem_cons.mp hp with rfl | hp
      · exact ⟨hlen, (h w (by simp)).2, (h v (by simp)).2⟩
      · exact hpairs p hp
    · exact ⟨[], w :: v :: words, rfl, fun _ hp => absurd hp List.not_mem_nil,
        .inr (.inr ⟨w, v, words, rfl, by omega⟩)⟩

namespace Emphasis
variable {style : Emphasis} {words : List Bytes}

/-- The two rules of the style, one after the other. -/
def twice (style : Emphasis) (s : Bytes) : Bytes := style.solid.pass (style.long.pass s)

theorem pass_ends (hrule : rule ∈ styleRules) :
    rule.pass [] = [] ∧ rule.pass [ch ' '] = [ch ' '] := by
  revert hrule
  revert rule
  decide +kernel

theorem twice_pairs {pairs : List (Bytes × Bytes)} (h : LongPairs pairs) :
    style.twice (style.spacedItems (unpaired pairs) ++ [ch ' ']) =
      style.spacedElements (unpaired pairs) ++ [ch ' '] := by
  rw [twice, long_pairs h, (pass_ends style.long_mem).2,
    solid_pairs h (fun d t hd => by cases hd), (pass_ends style.solid_mem).1]

theorem twice_last {pairs : List (Bytes × Bytes)} (h : LongPairs pairs)
    (hw : ∀ b ∈ w, isEmphasizedByte b = true) (hlen : 2 ≤ w.length) :
    style.twice (style.spacedItems (unpaired pairs ++ [w]) ++ [ch ' ']) =
      style.spacedElements (unpaired pairs ++ [w]) ++ [ch ' '] := by
  have hline : style.spacedItems (unpaired pairs ++ [w]) ++ [ch ' '] =
      style.spacedItems (unpaired pairs) ++ ch ' ' :: (style.item w ++ [ch ' ']) := by
    simp [spacedItems]
  rw [hline, twice, long_pairs h, long_word (by decide) (by decide) hw hlen,
    (pass_ends style.long_mem).1, solid_pairs h fun d t => element_head,
    StyleRule.pass_skip style.solid_mem (element_solid hw), (pass_ends style.solid_mem).2]
  simp [spacedElements]

theorem twice_single (style : Emphasis) (hb : isEmphasizedByte b = true) :
    style.twice (style.spacedItems [[b]] ++ [ch ' ']) =
      style.spacedElements [[b]] ++ [ch ' '] := by
  have hline : style.spacedItems [[b]] ++ [ch ' '] = ch ' ' :: (style.item [b] ++ [ch ' ']) := by
    simp [spacedItems]
  rw [hline, twice, long_last, solid_word (by decide) (by decide) (by simpa using hb),
    (pass_ends style.solid_mem).1]
  simp [spacedElements]

/-- A short word after pairs is left, since the blank before it is passed over. -/
theorem twice_short {pairs : List (Bytes × Bytes)} (h : LongPairs pairs) (hne : pairs ≠ [])
    (hb : isEmphasizedByte b = true) :
    style.twice (style.spacedItems (unpaired pairs ++ [[b]]) ++ [ch ' ']) =
      style.spacedElements (unpaired pairs) ++ ch ' ' :: (style.item [b] ++ [ch ' ']) := by
  have hline : style.spacedItems (unpaired pairs ++ [[b]]) ++ [ch ' '] =
      style.spacedItems (unpaired pairs) ++ ch ' ' :: (style.item [b] ++ [ch ' ']) := by
    simp [spacedItems]
  rw [hline, twice, long_pairs h, long_last]
  obtain ⟨pairs, p, rfl⟩ := (List.eq_nil_or_concat pairs).resolve_left hne
  rw [List.concat_eq_append] at h ⊢
  obtain ⟨_, hfirst, hsecond⟩ := h p (by simp)
  have hbefore : LongPairs pairs := fun q hq => h q (List.mem_append_left _ hq)
  have hhalf : style.halfDone (pairs ++ [p]) ++ ch ' ' :: (style.item [b] ++ [ch ' ']) =
      style.halfDone pairs ++ ch ' ' :: (style.element p.1 ++ ch ' ' ::
        (style.item p.2 ++ ch ' ' :: (style.item [b] ++ [ch ' ']))) := by
    simp [halfDone]
  rw [hhalf, solid_pairs hbefore fun d t => element_head,
    StyleRule.pass_skip style.solid_mem (element_solid hfirst),
    solid_word (by decide) (by decide) hsecond,
    StyleRule.pass_skip style.solid_mem (item_solid (by simpa using hb)),
    (pass_ends style.solid_mem).2]
  simp [unpaired, spacedElements]

theorem joined_solid (style : Emphasis) (hb : isEmphasizedByte b = true) :
    ∀ d ∈ style.opening ++ b :: style.mark, wordItem.takes d = false := by
  have hmark : ∀ b ∈ str "=*_", wordItem.takes b = false := by decide
  intro d hd
  rcases List.mem_append.mp hd with hd | hd
  · exact (style.tags_facts.1 d (List.mem_append_left _ hd)).1
  · rcases List.mem_cons.mp hd with rfl | hd
    · exact (emphasizedByte_facts d hb).1
    · exact hmark d (style.mark_facts d hd)

/-- A short word that is not the last is put into one element with the next one. -/
theorem twice_joined {pairs : List (Bytes × Bytes)} (h : LongPairs pairs)
    (words : List Bytes) (hb : isEmphasizedByte b = true)
    (hw : ∀ b ∈ w, isEmphasizedByte b = true) (hne : w ≠ []) :
    ∃ z, style.twice (style.spacedItems (unpaired pairs ++ [b] :: w :: words) ++ [ch ' ']) =
      style.spacedElements (unpaired pairs) ++
        ch ' ' :: (style.opening ++ b :: style.mark) ++ z := by
  obtain ⟨r, hr⟩ : ∃ r, style.spacedItems words ++ [ch ' '] = ch ' ' :: r := by
    cases words with
    | nil => exact ⟨[], rfl⟩
    | cons v words => exact ⟨_, rfl⟩
  have hline : style.spacedItems (unpaired pairs ++ [b] :: w :: words) ++ [ch ' '] =
      style.spacedItems (unpaired pairs) ++
        ch ' ' :: (style.item [b] ++ ch ' ' :: (style.item w ++ ch ' ' :: r)) := by
    rw [← hr]
    simp [spacedItems]
  refine ⟨style.solid.pass (ch ' ' :: (style.mark ++ (w ++ (style.closing ++
    ch ' ' :: style.long.pass r)))), ?_⟩
  rw [hline, twice, long_pairs h, long_joined (by decide) (by decide) hb hw hne,
    solid_pairs h fun d t => element_head]
  have helement : ∀ s : Bytes,
      style.element (b :: (style.mark ++ ch ' ' :: (style.mark ++ w))) ++ s =
        style.opening ++ (b :: style.mark) ++
          (ch ' ' :: (style.mark ++ (w ++ (style.closing ++ s)))) := fun s => by
    simp [element_eq]
  rw [helement, StyleRule.pass_skip style.solid_mem (joined_solid style hb)]
  simp

/-! ### All the rules -/

theorem passes_absent (rules : List StyleRule) {s : Bytes} (hrules : ∀ r ∈ rules, r ∈ styleRules)
    (h : ∀ r ∈ rules, ¬ r.mark <:+: s) :
    rules.foldl (fun line rule => rule.pass line) s = s := by
  induction rules with
  | nil => rfl
  | cons r rules ih =>
    rw [List.foldl_cons, StyleRule.pass_absent (hrules r (List.mem_cons_self ..))
      (h r (List.mem_cons_self ..))]
    exact ih (fun q hq => hrules q (List.mem_cons_of_mem _ hq))
      fun q hq => h q (List.mem_cons_of_mem _ hq)

theorem passes_lead {rules : List StyleRule} (hrules : ∀ r ∈ rules, r ∈ styleRules)
    (hu : Leads (· ∉ str "=*_") u) (v : Bytes) :
    rules.foldl (fun line rule => rule.pass line) (u ++ v) =
      u ++ rules.foldl (fun line rule => rule.pass line) v := by
  induction rules generalizing v with
  | nil => rfl
  | cons r rules ih =>
    rw [List.foldl_cons, List.foldl_cons, StyleRule.pass_lead (hrules r (List.mem_cons_self ..)) hu]
    exact ih (fun q hq => hrules q (List.mem_cons_of_mem _ hq)) _

/-- The rules after those of the style. -/
def later (style : Emphasis) (s : Bytes) : Bytes :=
  (styleRules.drop (style.place + 2)).foldl (fun line rule => rule.pass line) s

theorem later_mem (style : Emphasis) : ∀ r ∈ styleRules.drop (style.place + 2), r ∈ styleRules :=
  fun _ hr => List.mem_of_mem_drop hr

/-- A style that comes before has another mark, or the mark twice. -/
theorem before_marks (style : Emphasis) : ∀ r ∈ styleRules.take style.place,
    (∃ x ∈ r.mark, x ∈ str "=*_" ∧ x ∉ style.mark) ∨
      ∃ x ∈ str "=*_", style.mark = [x] ∧ r.mark = [x, x] := by
  cases style <;> decide +kernel

theorem spacedItems_bytes (style : Emphasis) {P : Byte → Prop}
    (hmark : ∀ b ∈ style.mark, P b) (hblank : P (ch ' '))
    (hw : ∀ w ∈ words, ∀ b ∈ w, P b) : ∀ b ∈ style.spacedItems words ++ [ch ' '], P b := by
  intro b hb
  rcases List.mem_append.mp hb with hb | hb
  · obtain ⟨w, hmem, hb⟩ := List.mem_flatMap.mp hb
    rcases List.mem_cons.mp hb with rfl | hb
    · exact hblank
    · rcases List.mem_append.mp hb with hb | hb
      · exact hmark b hb
      · exact (List.mem_append.mp hb).elim (hw w hmem b) (hmark b)
  · exact List.mem_singleton.mp hb ▸ hblank

theorem spacedItems_single {x : Byte} (hx : x ∈ str "=*_") (hmark : style.mark = [x])
    (h : EmphasizedWords words) : ¬ [x, x] <:+: style.spacedItems words ++ [ch ' '] := by
  have hxb : ch ' ' ∉ [x, x] := by
    have hmarks : ∀ x ∈ str "=*_", ch ' ' ∉ [x, x] := by decide
    exact hmarks x hx
  induction words with
  | nil => exact fun hin => absurd hin.length_le (by simp [spacedItems])
  | cons w words ih =>
    have hrest := ih fun v hv => h v (List.mem_cons_of_mem _ hv)
    obtain ⟨hne, hw⟩ := h w (List.mem_cons_self ..)
    obtain ⟨b, w, rfl⟩ := List.exists_cons_of_ne_nil hne
    have hxw : x ∉ b :: w := fun hmem => (emphasizedByte_facts x (hw x hmem)).2.2.2 hx
    have hb : b ∉ [x, x] := fun hmem => hxw (by simp at hmem; simp [hmem])
    obtain ⟨r, hr⟩ : ∃ r, style.spacedItems words ++ [ch ' '] = ch ' ' :: r := by
      cases words with
      | nil => exact ⟨[], rfl⟩
      | cons v words => exact ⟨_, rfl⟩
    have hline : style.spacedItems ((b :: w) :: words) ++ [ch ' '] =
        [] ++ ch ' ' :: (([x] ++ b :: (w ++ [x])) ++ ch ' ' :: r) := by
      rw [← hr]
      simp [spacedItems, item, hmark]
    rw [hline]
    intro hin
    rcases infix_split hxb hin with hin | hin
    · exact absurd hin.length_le (by simp)
    · rcases infix_split hxb hin with hin | hin
      · rcases infix_split hb hin with hin | hin
        · exact absurd hin.length_le (by simp)
        · -- the mark is in the rest of the item once
          have hcount := hin.sublist.count_le x
          have hzero := List.count_eq_zero.mpr fun hmem => hxw (List.mem_cons_of_mem b hmem)
          simp [hzero] at hcount
      · exact hrest (hin.trans (hr ▸ (List.suffix_cons _ _).isInfix))

/-- The rules before those of the style leave the line. -/
theorem emphasis_later (h : EmphasizedWords words) :
    emphasis (style.spacedItems words ++ [ch ' ']) =
      style.later (style.twice (style.spacedItems words ++ [ch ' '])) := by
  have hbefore := passes_absent (styleRules.take style.place)
    (fun _ hr => List.mem_of_mem_take hr) (s := style.spacedItems words ++ [ch ' '])
    fun r hr hin => by
      rcases style.before_marks r hr with ⟨x, hx, hxmark, hxstyle⟩ | ⟨x, hx, hmark, hr⟩
      · have hbytes := spacedItems_bytes style (P := (· ≠ x)) (fun b hb heq => hxstyle (heq ▸ hb))
          (fun heq => absurd (heq ▸ hxmark) (by decide))
          fun w hw b hb heq => (emphasizedByte_facts b ((h w hw).2 b hb)).2.2.2 (heq ▸ hxmark)
        exact hbytes x (hin.subset hx) rfl
      · rw [hr] at hin
        exact spacedItems_single hx hmark h hin
  rw [emphasis_passes, style.rules_split, List.foldl_append, hbefore, List.foldl_cons,
    List.foldl_cons]
  rfl

theorem spacedElements_bytes (style : Emphasis) (h : EmphasizedWords words) :
    ∀ b ∈ style.spacedElements words ++ [ch ' '], b ∉ str "=*_" := by
  intro b hb
  rcases List.mem_append.mp hb with hb | hb
  · obtain ⟨w, hw, hb⟩ := List.mem_flatMap.mp hb
    rcases List.mem_cons.mp hb with rfl | hb
    · decide
    · exact element_bytes (fun b hb => (style.tags_facts.1 b hb).2)
        (fun b hb => (emphasizedByte_facts b ((h w hw).2 b hb)).2.2.2) b hb
  · rw [List.mem_singleton.mp hb]
    decide

/-- After a blank comes a tag. -/
theorem spacedElements_leads (style : Emphasis) (h : EmphasizedWords words) :
    Leads (· = ch '<') (style.spacedElements words) := by
  induction words with
  | nil => exact ⟨.nil, by simp [spacedElements]⟩
  | cons w words ih =>
    have hw := (h w (List.mem_cons_self ..)).2
    have hrest := ih fun v hv => h v (List.mem_cons_of_mem _ hv)
    exact Leads.append (.blank (element_solid hw) (element_startsIn style w)) hrest

/-- The later rules have other marks; or one of them has half of the mark. -/
theorem later_marks (style : Emphasis) :
    (∀ r ∈ styleRules.drop (style.place + 2), ∃ x ∈ r.mark, x ∈ str "=*_" ∧ x ∉ style.mark) ∨
      ∃ single : Emphasis, ∃ x ∈ str "=*_", style.mark = [x, x] ∧ single.mark = [x] ∧
        ∃ others rest, styleRules.drop (style.place + 2) = others ++ single.long :: rest ∧
          ∀ r ∈ others, ∃ y ∈ r.mark, y ∈ str "=*_" ∧ y ∉ style.mark := by
  cases style with
  | star => exact .inl (by decide +kernel)
  | underscore => exact .inl (by decide +kernel)
  | equal => exact .inl (by decide +kernel)
  | underscores =>
    exact .inr ⟨underscore, ch '_', by decide, by decide, by decide, [star.long, star.solid],
      [underscore.solid, equal.long, equal.solid], by decide +kernel, by decide +kernel⟩
  | equals =>
    exact .inr ⟨equal, ch '=', by decide, by decide, by decide, [underscores.long,
      underscores.solid, star.long, star.solid, underscore.long, underscore.solid], [equal.solid],
      by decide +kernel, by decide +kernel⟩

/-- A short word that was left keeps a mark. -/
theorem later_short (style : Emphasis) (hb : isEmphasizedByte b = true) :
    ∃ u v, style.later (ch ' ' :: (style.item [b] ++ [ch ' '])) = u ++ v ∧ LeadsNoWord u ∧
      ∃ x ∈ style.mark, x ∈ u := by
  have hupper : ∀ b, b = ch '<' → isUpper b = false := by
    rintro b rfl
    decide
  have hmarkUpper : ∀ b ∈ str "=*_", isUpper b = false := by decide
  have hword : ∀ d ∈ [b], isEmphasizedByte d = true := by simpa using hb
  have hbytes : ∀ y ∈ str "=*_", y ∉ style.mark →
      y ∉ ch ' ' :: (style.item [b] ++ [ch ' ']) := by
    intro y hy hstyle hmem
    have hne : y ≠ ch ' ' ∧ y ≠ b :=
      ⟨fun h => absurd (h ▸ hy) (by decide),
        fun h => (emphasizedByte_facts b hb).2.2.2 (h ▸ hy)⟩
    simp [item, hne, hstyle] at hmem
  rcases style.later_marks with
    hother | ⟨single, x, hx, hmark, hsingle, others, rest, hrules, hothers⟩
  · have hsame : style.later (ch ' ' :: (style.item [b] ++ [ch ' '])) =
        ch ' ' :: (style.item [b] ++ [ch ' ']) := by
      refine passes_absent _ style.later_mem fun r hr hin => ?_
      obtain ⟨y, hy, hymark, hystyle⟩ := hother r hr
      exact hbytes y hymark hystyle (hin.subset hy)
    obtain ⟨x, m, hmark⟩ := List.exists_cons_of_length_pos style.mark_length_pos
    have hx : x ∈ style.mark := by simp [hmark]
    refine ⟨ch ' ' :: style.item [b], [ch ' '], by rw [hsame, List.cons_append],
      .blank (item_solid hword) ⟨x, m ++ ([b] ++ style.mark), by rw [item, hmark, List.cons_append],
        hmarkUpper x (style.mark_facts x hx)⟩, x, hx, by simp [item, hx]⟩
  · -- one byte of each mark is taken, and the other goes into the element
    have hrulesMem : ∀ r ∈ others ++ single.long :: rest, r ∈ styleRules :=
      hrules ▸ style.later_mem
    have hsame := passes_absent others
      (fun r hr => hrulesMem r (List.mem_append_left _ hr))
      (s := ch ' ' :: (style.item [b] ++ [ch ' '])) fun r hr hin => by
        obtain ⟨y, hy, hymark, hystyle⟩ := hothers r hr
        exact hbytes y hymark hystyle (hin.subset hy)
    have hxfacts : ∀ x ∈ str "=*_", singleMatch x solidItem = true ∧
        closingItem.takes x = false ∧ wordItem.takes x = false := by decide
    obtain ⟨hxsolid, hxcloses, hxword⟩ := hxfacts x hx
    have hline : ch ' ' :: (style.item [b] ++ [ch ' ']) =
        ch ' ' :: (single.item (x :: ([b] ++ [x])) ++ [ch ' ']) := by
      simp [item, hmark, hsingle]
    have hhit : single.long.pass (ch ' ' :: (single.item (x :: ([b] ++ [x])) ++ [ch ' '])) =
        ch ' ' :: (single.element (x :: ([b] ++ [x])) ++ [ch ' ']) := by
      rw [long_hit (by decide) (by decide) hxsolid hxsolid, (pass_ends single.long_mem).1]
      rintro u f y hu _ ⟨e, t, hclose, he⟩
      obtain rfl : y = [] := by
        have hlen := congrArg List.length hu
        simp only [List.length_append, List.length_cons, List.length_nil] at hlen
        exact List.length_eq_zero_iff.mp (by omega)
      rw [hsingle] at hclose
      obtain ⟨rfl, _⟩ := List.cons.inj (List.cons.inj hclose).2
      rw [hxcloses] at he
      cases he
    have hsolid : ∀ d ∈ single.element (x :: ([b] ++ [x])), wordItem.takes d = false := by
      refine element_bytes (fun d hd => (single.tags_facts.1 d hd).1) fun d hd => ?_
      have hd' : d = x ∨ d = b := by simpa [or_comm, or_left_comm] using hd
      rcases hd' with rfl | rfl
      · exact hxword
      · exact (emphasizedByte_facts d hb).1
    have hleads : Leads (· = ch '<') (ch ' ' :: single.element (x :: ([b] ++ [x]))) :=
      .blank hsolid (element_startsIn single _)
    have hmarks : ∀ b, b = ch '<' → b ∉ str "=*_" := by
      rintro b rfl
      decide
    refine ⟨ch ' ' :: single.element (x :: ([b] ++ [x])),
      rest.foldl (fun line rule => rule.pass line) [ch ' '], ?_, hleads.mono hupper, x,
      by simp [hmark], by simp [element_eq]⟩
    rw [later, hrules, List.foldl_append, hsame, List.foldl_cons, hline, hhit, ← List.cons_append,
      passes_lead (fun r hr => hrulesMem r (by simp [hr])) (hleads.mono hmarks)]

theorem later_elements (h : EmphasizedWords words) :
    style.later (style.spacedElements words ++ [ch ' ']) =
      style.spacedElements words ++ [ch ' '] := by
  refine passes_absent _ style.later_mem fun r hr hin => ?_
  have hmarks : ∀ r ∈ styleRules, ∃ x ∈ r.mark, x ∈ str "=*_" := by decide +kernel
  obtain ⟨x, hx, hxmark⟩ := hmarks r (style.later_mem r hr)
  exact spacedElements_bytes style h x (hin.subset hx) hxmark

theorem later_lead (hu : Leads (· = ch '<') u) (v : Bytes) :
    style.later (u ++ v) = u ++ style.later v := by
  have hmark : ∀ b, b = ch '<' → b ∉ str "=*_" := by
    rintro b rfl
    decide
  exact passes_lead style.later_mem (hu.mono hmark) v

/-- Either every word gets its element, or a mark is kept before the first word that does not. -/
theorem emphasis_words (style : Emphasis) (h : EmphasizedWords words) (hne : words ≠ []) :
    (EachApart words ∧ emphasis (style.spacedItems words ++ [ch ' ']) =
      style.spacedElements words ++ [ch ' ']) ∨
    (¬ EachApart words ∧ ∃ u v, emphasis (style.spacedItems words ++ [ch ' ']) = u ++ v ∧
      LeadsNoWord u ∧ ∃ x ∈ style.mark, x ∈ u) := by
  have hupper : ∀ b, b = ch '<' → isUpper b = false := by
    rintro b rfl
    decide
  rw [emphasis_later h]
  obtain ⟨pairs, rest, rfl, hpairs, hrest⟩ := words_split words h
  have hbefore : EmphasizedWords (unpaired pairs) := fun w hw => h w (List.mem_append_left _ hw)
  have hlong := oddLong_unpaired hpairs rest
  have hleads := spacedElements_leads style hbefore
  rcases hrest with rfl | ⟨w, rfl⟩ | ⟨w, v, more, rfl, hshort⟩
  · rw [List.append_nil] at h hlong ⊢
    refine .inl ⟨.inr (hlong.mpr trivial), ?_⟩
    rw [twice_pairs hpairs, later_elements h]
  · obtain ⟨hwne, hw⟩ := h w (by simp)
    by_cases hlen : 2 ≤ w.length
    · refine .inl ⟨.inr (hlong.mpr hlen), ?_⟩
      rw [twice_last hpairs hw hlen, later_elements h]
    · obtain ⟨b, rfl⟩ : ∃ b, w = [b] :=
        List.length_eq_one_iff.mp (by have := List.length_pos_iff.mpr hwne; omega)
      by_cases hnil : pairs = []
      · subst hnil
        refine .inl ⟨.inl rfl, ?_⟩
        have hsingle := twice_single style (hw b (by simp))
        exact (congrArg style.later hsingle).trans (later_elements h)
      · have hnot : ¬ EachApart (unpaired pairs ++ [[b]]) := by
          rintro (hone | hodd)
          · obtain ⟨p, pairs, rfl⟩ := List.exists_cons_of_ne_nil hnil
            simp [unpaired] at hone
          · exact hlen (hlong.mp hodd)
        obtain ⟨u, v, hkept, hu, x, hx, hxu⟩ := later_short style (hw b (by simp))
        refine .inr ⟨hnot, style.spacedElements (unpaired pairs) ++ u, v, ?_,
          (hleads.mono hupper).append hu, x, hx, List.mem_append_right _ hxu⟩
        rw [twice_short hpairs hnil (hw b (by simp)), later_lead hleads, hkept,
          List.append_assoc]
  · obtain ⟨hwne, hw⟩ := h w (by simp)
    obtain ⟨hvne, hv⟩ := h v (by simp)
    obtain ⟨b, rfl⟩ : ∃ b, w = [b] :=
      List.length_eq_one_iff.mp (by have := List.length_pos_iff.mpr hwne; omega)
    have hnot : ¬ EachApart (unpaired pairs ++ [b] :: v :: more) := by
      rintro (hone | hodd)
      · simp only [List.length_append, List.length_cons] at hone
        omega
      · exact absurd (hlong.mp hodd).1 (by simp)
    obtain ⟨z, hz⟩ := twice_joined hpairs more (hw b (by simp)) hv hvne
    obtain ⟨u, hu⟩ := style.tags_facts.2
    have hjoined : Leads (· = ch '<') (style.spacedElements (unpaired pairs) ++
        ch ' ' :: (style.opening ++ b :: style.mark)) :=
      hleads.append (.blank (joined_solid style (hw b (by simp)))
        ⟨ch '<', u ++ b :: style.mark, by rw [hu, List.cons_append], rfl⟩)
    obtain ⟨x, hx⟩ := List.exists_mem_of_length_pos style.mark_length_pos
    refine .inr ⟨hnot, _, style.later z, ?_, hjoined.mono hupper, x, hx, by simp [hx]⟩
    rw [hz, later_lead hjoined]

end Emphasis

/-! ### Lines with a lead -/

/-- What the text of a line begins with is kept by the links and the variables. -/
theorem formatWikiLine_lead {l : Bytes} (h : NoBlock l)
    (hl : entities (embeddedUrls env.cls (embeddedHtml (blockQuote line))) = l)
    (hs : emphasis (str " " ++ l ++ str " ") = u ++ v) (hbracket : ch '[' ∉ u ++ v)
    (hlead : LeadsNoWord u) (hpercent : ch '%' ∉ u) :
    ∃ w, (formatWikiLine env line st).1 = u ++ w := by
  obtain ⟨hline, types, elements, result, hst⟩ := h.styled st hl
  rw [formatWikiLine_styled]
  generalize styledLine env.cls line st = styled at hline hst
  obtain ⟨padded, st'⟩ := styled
  obtain rfl : padded = u ++ v := hline.trans hs
  have hanchored : headPair anchoredPattern.items =
      some (.set false [.cls (ch 's'), .lit (ch '(')], .cls (ch 'u')) := by decide
  have hpatterns : plainPattern = ⟨false, plainPattern.items⟩ ∧
      anchoredPattern = ⟨false, anchoredPattern.items⟩ := by decide
  have hauto : ∃ w, (autoLinks env (u ++ v) st').1 = u ++ w := by
    rw [autoLinks_fst]
    split_ifs
    · exact ⟨v, rfl⟩
    · rw [hpatterns.1, hpatterns.2, gsub, gsub, replaceAll_lead hanchored hlead.1 hlead.2,
        replaceAll_lead plainPattern_pair hlead.1 hlead.2]
      exact ⟨_, rfl⟩
  obtain ⟨w, hw⟩ := hauto
  have hpercents : ∀ b ∈ u, singleMatch b (.cls (ch '%')) = false := fun b hb =>
    Bool.eq_false_iff.mpr fun hm =>
      hpercent ((matchClass_literal (l := ch '%') (by decide) b).mp hm ▸ hb)
  have hpattern : pat "%%(%S+)%%" = ⟨false, (pat "%%(%S+)%%").items⟩ := by decide
  have hhead : headSingle (pat "%%(%S+)%%").items = some (.cls (ch '%')) := by decide
  simp only [hyperLinks_plain hbracket, hw, percentVariables, gsub]
  rw [hpattern, replaceAll_run hhead hpercents]
  exact ⟨_, rfl⟩

/-! ### Lines of emphasized words -/

def LetterWords (words : List Bytes) : Prop := ∀ w ∈ words, w ≠ [] ∧ ∀ b ∈ w, isAlpha b = true

/-- Each word between its marks, and single blanks between the words. -/
def emphasisLine (style : Emphasis) (words : List Bytes) : Bytes := wordLine (words.map style.item)

/-- Each word is rendered in an element of its own. -/
def WordsEmphasized (env : FormatterEnv) (style : Emphasis) (words : List Bytes)
    (st : FormatterState) : Prop :=
  (formatWikiLine env (emphasisLine style words) st).1 =
    str " " ++ wordLine (words.map style.element) ++ str " "

/-- The word after the step that puts `<nop>` back. -/
def nopWord (w : Bytes) : Bytes := gsubStr (pat "nopTOKEN") (str "<nop>") w

section
variable {style : Emphasis} {words : List Bytes}

theorem emphasisLine_padded (style : Emphasis) (hne : words ≠ []) :
    str " " ++ emphasisLine style words ++ str " " = style.spacedItems words ++ [ch ' '] := by
  rw [emphasisLine, wordLine_padded (by simpa using hne), padded, List.flatMap_map]
  rfl

theorem elements_padded (style : Emphasis) (hne : words ≠ []) :
    str " " ++ wordLine (words.map style.element) ++ str " " =
      style.spacedElements words ++ [ch ' '] := by
  rw [wordLine_padded (by simpa using hne), padded, List.flatMap_map]
  rfl

theorem nopWord_word (hne : w ≠ []) (hw : ∀ b ∈ w, isAlpha b = true) :
    nopWord w ≠ [] ∧ ∀ b ∈ nopWord w, isEmphasizedByte b = true := by
  have hletters : ∀ b ∈ w, isEmphasizedByte b = true := fun b hb => by
    simp [isEmphasizedByte, hw b hb]
  obtain ⟨b, u, rfl⟩ := List.exists_cons_of_ne_nil hne
  have hopen : ch '<' ≠ ch '%' ∧ isEmphasizedByte (ch '<') = true := by decide
  have hhead : StartsIn (isEmphasizedByte · = true) (b :: u) := ⟨b, u, rfl, hletters b (by simp)⟩
  have hstart : StartsIn (isEmphasizedByte · = true) (nopWord (b :: u)) :=
    gsubStr_startsIn (p := pat "nopTOKEN") rfl (by decide) hopen hhead (str "nop>")
  obtain ⟨d, v, hd, _⟩ := hstart
  exact ⟨by simp [hd], gsubStr_bytes rfl (by decide) hletters⟩

theorem nopWord_marks {m : Bytes} (hm : ∀ x ∈ m, x ∉ str "nopTOKEN") (v : Bytes) :
    nopWord (m ++ v) = m ++ nopWord v := by
  induction m with
  | nil => rfl
  | cons x m ih =>
    have hsplit := gsubStr_nopTOKEN_split (hm x (List.mem_cons_self ..)) [] (m ++ v)
    have hnil : gsubStr (pat "nopTOKEN") (str "<nop>") [] = [] := by decide
    rw [hnil, List.nil_append, List.nil_append] at hsplit
    exact hsplit.trans (congrArg (x :: ·) (ih fun y hy => hm y (List.mem_cons_of_mem _ hy)))

theorem nopWord_item (style : Emphasis) (w : Bytes) :
    nopWord (style.item w) = style.item (nopWord w) := by
  have hmarks : ∀ x ∈ str "=*_", x ∉ str "nopTOKEN" := by decide
  have hm : ∀ x ∈ style.mark, x ∉ str "nopTOKEN" := fun x hx => hmarks x (style.mark_facts x hx)
  obtain ⟨x, m, hmark⟩ := List.exists_cons_of_length_pos style.mark_length_pos
  have hlast := nopWord_marks (fun y hy => hm y (by simp [hmark, hy])) (m := m) []
  have hnil : nopWord [] = [] := by decide
  rw [hnil, List.append_nil] at hlast
  have hrest : nopWord (w ++ x :: m) = nopWord w ++ x :: nopWord m :=
    gsubStr_nopTOKEN_split (hm x (by simp [hmark])) w m
  rw [Emphasis.item, nopWord_marks hm, hmark, hrest, hlast, Emphasis.item, hmark]

theorem emphasisLine_cons (hne : words ≠ []) : emphasisLine style (w :: words) =
    style.item w ++ ch ' ' :: emphasisLine style words := by
  rw [emphasisLine, List.map_cons, wordLine, List.intercalate_cons_of_ne_nil (by simpa using hne),
    List.append_assoc]
  rfl

theorem nopWord_line (style : Emphasis) (words : List Bytes) :
    nopWord (emphasisLine style words) = emphasisLine style (words.map nopWord) := by
  induction words with
  | nil =>
    have hnil : nopWord [] = [] := by decide
    exact hnil
  | cons w words ih =>
    by_cases hne : words = []
    · subst hne
      simpa [emphasisLine, wordLine] using nopWord_item style w
    · have hsplit : nopWord (style.item w ++ ch ' ' :: emphasisLine style words) =
          nopWord (style.item w) ++ ch ' ' :: nopWord (emphasisLine style words) :=
        gsubStr_nopTOKEN_split (by decide) _ _
      rw [emphasisLine_cons hne, hsplit, nopWord_item, ih, List.map_cons,
        emphasisLine_cons (by simpa using hne)]

theorem nopWord_words (h : LetterWords words) : EmphasizedWords (words.map nopWord) := by
  intro w hw
  obtain ⟨w, hmem, rfl⟩ := List.mem_map.mp hw
  exact nopWord_word (h w hmem).1 (h w hmem).2

theorem emphasisLine_not_mem {x : Byte} (hx : x ∉ str "=*_ ") (hw : ∀ w ∈ words, x ∉ w) :
    x ∉ emphasisLine style words := by
  by_cases hne : words = []
  · subst hne
    exact List.not_mem_nil
  · intro hmem
    have hmarks : str "=*_" ⊆ str "=*_ " := by decide
    have hbytes := Emphasis.spacedItems_bytes style (P := (· ≠ x))
      (fun b hb heq => hx (heq ▸ hmarks (style.mark_facts b hb)))
      (fun heq => hx (heq ▸ (by decide : ch ' ' ∈ str "=*_ ")))
      (fun w hmem b hb heq => hw w hmem (heq ▸ hb))
    rw [← emphasisLine_padded style hne] at hbytes
    exact hbytes x (by simp [hmem]) rfl

theorem emphasisLine_noBlock (h : EmphasizedWords words) (hne : words ≠ []) :
    NoBlock (emphasisLine style words) := by
  have hstart : StartsIn (· ∈ str "=*_") (emphasisLine style words) := by
    obtain ⟨w, words, rfl⟩ := List.exists_cons_of_ne_nil hne
    obtain ⟨x, m, hmark⟩ := List.exists_cons_of_length_pos style.mark_length_pos
    have hitem : StartsIn (· ∈ str "=*_") (style.item w) :=
      ⟨x, _, by rw [Emphasis.item, hmark, List.cons_append], style.mark_facts x (by simp [hmark])⟩
    by_cases hnil : words = []
    · subst hnil
      simpa [emphasisLine, wordLine] using hitem
    · rw [emphasisLine_cons hnil]
      exact hitem.append _
  have hno : ∀ x, isEmphasizedByte x = false → ∀ w ∈ words, x ∉ w := fun x hx w hw hmem => by
    rw [(h w hw).2 x hmem] at hx
    cases hx
  obtain ⟨x, m, hm, hx⟩ := hstart
  refine ⟨by simp [hm], fun b t hb => ?_, emphasisLine_not_mem (by decide) (hno _ (by decide)),
    emphasisLine_not_mem (by decide) (hno _ (by decide))⟩
  obtain ⟨rfl, _⟩ := List.cons.inj (hm.symm.trans hb)
  have hfacts : ∀ x ∈ str "=*_", isSpace x = false ∧ x ≠ ch '-' ∧ x ≠ ch '#' := by decide
  exact hfacts x hx

theorem emphasisLine_text (style : Emphasis) (h : LetterWords words) (cls : FormatterClass) :
    entities (embeddedUrls cls (embeddedHtml (blockQuote (emphasisLine style words)))) =
      emphasisLine style (words.map nopWord) := by
  have hno : ∀ x, isAlpha x = false → x ∉ str "=*_ " → x ∉ emphasisLine style words :=
    fun x hx hmark => emphasisLine_not_mem hmark fun w hw hmem => by
      rw [(h w hw).2 x hmem] at hx
      cases hx
  have hnop : ∀ x, isEmphasizedByte x = false → x ∉ str "=*_ " →
      x ∉ emphasisLine style (words.map nopWord) :=
    fun x hx hmark => emphasisLine_not_mem hmark fun w hw hmem => by
      rw [(nopWord_words h w hw).2 x hmem] at hx
      cases hx
  have hhtml : embeddedHtml (emphasisLine style words) = emphasisLine style (words.map nopWord) :=
    (embeddedHtml_words (hno _ (by decide) (by decide)) (hno _ (by decide) (by decide))
      (hno _ (by decide) (by decide))).trans (nopWord_line style words)
  rw [blockQuote_plain (hno _ (by decide) (by decide)), hhtml,
    embeddedUrls_plain _ (hnop _ (by decide) (by decide)),
    entities_plain (hnop _ (by decide) (by decide)) (hnop _ (by decide) (by decide))]

theorem count_spacedElements (style : Emphasis) (words : List Bytes) (x : Byte) (hx : x ≠ ch ' ') :
    (style.spacedElements words).count x =
      words.length * (style.opening ++ style.closing).count x + (words.map (·.count x)).sum := by
  induction words with
  | nil => simp [Emphasis.spacedElements]
  | cons w words ih =>
    have hcons : style.spacedElements (w :: words) =
        ch ' ' :: style.element w ++ style.spacedElements words := rfl
    rw [hcons, List.count_append, ih, Emphasis.element_eq]
    simp [hx.symm, Nat.add_mul]
    omega

theorem nopWord_same (h : ∀ w ∈ words, ¬ str "nopTOKEN" <:+: w) : words.map nopWord = words := by
  have hsame : ∀ w ∈ words, nopWord w = w := fun w hw => gsubStr_nopTOKEN_absent (h w hw)
  rw [List.map_congr_left hsame, List.map_id']

/-- The elements tell whether the words were left. -/
theorem spacedElements_nopWord (h : LetterWords words) :
    style.spacedElements (words.map nopWord) = style.spacedElements words ↔
      ∀ w ∈ words, ¬ str "nopTOKEN" <:+: w := by
  constructor
  · intro heq w hw hin
    have hcount := congrArg (List.count (ch '<')) heq
    rw [count_spacedElements _ _ _ (by decide), count_spacedElements _ _ _ (by decide),
      List.length_map, Nat.add_left_cancel_iff] at hcount
    have hzero : (words.map (·.count (ch '<'))).sum = 0 := by
      rw [List.sum_eq_zero]
      intro n hn
      obtain ⟨v, hv, rfl⟩ := List.mem_map.mp hn
      exact List.count_eq_zero.mpr fun hmem => absurd ((h v hv).2 _ hmem) (by decide)
    have hlt : ch '<' ∈ nopWord w := by
      rw [nopWord, nopTOKEN_pattern]
      exact gsubStr_literal_mem (by decide) (by decide) hin
    have hle := List.single_le_sum (l := (words.map nopWord).map (·.count (ch '<')))
      (fun _ _ => Nat.zero_le _) ((nopWord w).count (ch '<'))
      (List.mem_map_of_mem (List.mem_map_of_mem hw))
    have hpos := List.count_pos_iff.mpr hlt
    omega
  · intro hnop
    rw [nopWord_same hnop]

end

/-- Each word gets an element of its own exactly when it is the only one, or when every other word
from the first has two letters or more, and no word holds the mark for `<nop>`. -/
theorem wordsEmphasized_iff {words : List Bytes} (h : LetterWords words) (hne : words ≠ [])
    (env : FormatterEnv) (style : Emphasis) (st : FormatterState) :
    WordsEmphasized env style words st ↔
      EachApart words ∧ ∀ w ∈ words, ¬ str "nopTOKEN" <:+: w := by
  have hupper : ∀ b, b = ch '<' → isUpper b = false := by
    rintro b rfl
    decide
  have hwords := nopWord_words h
  have hne' : words.map nopWord ≠ [] := by simpa using hne
  have hblock : NoBlock (emphasisLine style (words.map nopWord)) :=
    emphasisLine_noBlock hwords hne'
  have htext := emphasisLine_text style h env.cls
  have hpadded := emphasisLine_padded style hne'
  have hexpected := elements_padded style hne
  have hstyled : ∀ b ∈ emphasis (style.spacedItems (words.map nopWord) ++ [ch ' ']),
      b ≠ ch '[' ∧ b ≠ ch '%' := by
    have hmarks : ∀ b ∈ str "=*_", b ≠ ch '[' ∧ b ≠ ch '%' := by decide
    refine emphasis_bytes (by decide +kernel) (Emphasis.spacedItems_bytes style
      (fun b hb => hmarks b (style.mark_facts b hb)) (by decide) fun w hw b hb => ?_)
    have hb' := (hwords w hw).2 b hb
    exact ⟨ne_of_test hb' (by decide), ne_of_test hb' (by decide)⟩
  rw [WordsEmphasized, hexpected]
  rcases Emphasis.emphasis_words style hwords hne' with
    ⟨heach, hout⟩ | ⟨hnot, u, v, hout, hleads, x, hx, hxu⟩
  · have hleads := Emphasis.spacedElements_leads style hwords
    have hmiss : plainPattern.Misses (style.spacedElements (words.map nopWord) ++ [ch ' ']) := by
      refine plainPattern_misses ((hleads.mono hupper).1.append (by simp) fun b hb e _ htakes => ?_)
      rw [hleads.2 b hb] at htakes
      cases htakes
    rw [hout] at hstyled
    have hbracket : ch '[' ∉ style.spacedElements (words.map nopWord) ++ [ch ' '] :=
      fun hmem => (hstyled _ hmem).1 rfl
    have hpercent : ch '%' ∉ style.spacedElements (words.map nopWord) ++ [ch ' '] :=
      fun hmem => (hstyled _ hmem).2 rfl
    rw [formatWikiLine_linkless hblock htext (hpadded ▸ hout) hbracket (.inr hmiss),
      percentVariables_plain hpercent, List.append_cancel_right_eq, spacedElements_nopWord h]
    exact ⟨fun hnop => ⟨nopWord_same hnop ▸ heach, hnop⟩, And.right⟩
  · rw [hout] at hstyled
    obtain ⟨z, hz⟩ := formatWikiLine_lead hblock htext (hpadded ▸ hout)
      (fun hmem => (hstyled _ hmem).1 rfl) hleads
      fun hmem => (hstyled _ (List.mem_append_left v hmem)).2 rfl
    rw [hz]
    refine iff_of_false (fun heq => ?_) fun h => hnot (by rw [nopWord_same h.2]; exact h.1)
    have hletters : EmphasizedWords words := fun w hw =>
      ⟨(h w hw).1, fun b hb => by simp [isEmphasizedByte, (h w hw).2 b hb]⟩
    refine Emphasis.spacedElements_bytes style hletters x ?_ (style.mark_facts x hx)
    rw [← heq]
    exact List.mem_append_left z hxu

theorem wordsEmphasized_two :
    WordsEmphasized (emptyEnv .wiki) .underscores [str "bold", str "x"] {} := by
  have hletters : LetterWords [str "bold", str "x"] := by
    unfold LetterWords
    decide +kernel
  refine (wordsEmphasized_iff hletters (List.cons_ne_nil _ _) (emptyEnv .wiki) .underscores {}).mpr
    ⟨.inr ⟨by decide, trivial⟩, by decide +kernel⟩

/-- In a line of words of one letter the first two share an element. -/
theorem wordsEmphasized_letters :
    LetterWords [str "a", str "b"] ∧
      ¬ WordsEmphasized (emptyEnv .wiki) .star [str "a", str "b"] {} := by
  unfold LetterWords WordsEmphasized
  exact ⟨by decide +kernel, by decide +kernel⟩

end MoonWiki
