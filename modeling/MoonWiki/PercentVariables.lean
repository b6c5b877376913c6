import MoonWiki.LinePatterns

/-! The variables between percent signs. -/
namespace MoonWiki
open Lua

variable {s u v w line : Bytes} {b : Byte} {env : FormatterEnv} {st : FormatterState}

/-! ### Texts with variables -/

/-- Lower-case letters, digits, commas, blanks and percent signs. -/
def isPercentByte (b : Byte) : Bool := isLower b || isDigit b || isSpace b || (str ",%").contains b

/-- A text of these bytes and of the variable `%BR%`. -/
inductive PercentText : Bytes → Prop
  | nil : PercentText []
  | byte {b : Byte} {s : Bytes} : isPercentByte b = true → PercentText s → PercentText (b :: s)
  | lineBreak {s : Bytes} : PercentText s → PercentText (str "%BR%" ++ s)

/-- Every `%BR%`, found from left to right, is a line break. -/
def expandBreaks : Bytes → Bytes
  | [] => []
  | b :: s =>
    if str "%BR%" <+: b :: s then str "<BR>" ++ expandBreaks (s.drop 3) else b :: expandBreaks s
termination_by s => s.length
decreasing_by all_goals simp

/-- Two percent signs of one word are neighbours, or they are those of a variable. -/
def OnlyBreaks (s : Bytes) : Prop :=
  ∀ u v w, s = u ++ ch '%' :: (v ++ ch '%' :: w) → v ≠ [] → (∀ b ∈ v, isSpace b = false) →
    v = str "BR"

theorem expandBreaks_break (s : Bytes) :
    expandBreaks (str "%BR%" ++ s) = str "<BR>" ++ expandBreaks s := by
  have hcons : str "%BR%" ++ s = ch '%' :: (str "BR%" ++ s) := rfl
  rw [hcons, expandBreaks, ← hcons, if_pos (List.prefix_append _ _)]
  rfl

theorem expandBreaks_other (h : ¬ str "%BR%" <+: b :: s) :
    expandBreaks (b :: s) = b :: expandBreaks s := by
  rw [expandBreaks, if_neg h]

/-- A line break is as long as its variable. -/
theorem length_expandBreaks (s : Bytes) : (expandBreaks s).length = s.length := by
  induction s using expandBreaks.induct with
  | case1 => simp [expandBreaks]
  | case2 b s h ih =>
    obtain ⟨t, ht⟩ := h
    rw [← ht, expandBreaks_break]
    have hs : str "BR%" ++ t = s := (List.cons.inj ht).2
    have hdrop : s.drop 3 = t := by rw [← hs]; rfl
    rw [hdrop] at ih
    simp [ih, show (str "<BR>").length = 4 by decide, show (str "%BR%").length = 4 by decide]
  | case3 b s h ih => rw [expandBreaks_other h, List.length_cons, ih, List.length_cons]

/-! ### What the pattern takes -/

def variablePattern : Pattern := pat "%%(%S+)%%"

theorem variablePattern_eq :
    variablePattern = ⟨false, betweenItems (.cls (ch '%')) (.cls (ch 'S'))⟩ := by
  decide

theorem nonSpace_match (b : Byte) : singleMatch b (.cls (ch 'S')) = !isSpace b := by
  revert b
  refine forall_byte ?_
  decide +kernel

theorem percent_match (b : Byte) : singleMatch b (.cls (ch '%')) = true ↔ b = ch '%' :=
  matchClass_literal (l := ch '%') (by decide) b

/-- The text between the first percent sign and the last one of the word. -/
theorem matchHere_variable {m : Match} (h : matchHere variablePattern.items s = some m) :
    ∃ v, s = ch '%' :: (v ++ ch '%' :: m.after) ∧ m.whole = ch '%' :: (v ++ [ch '%']) ∧
      m.captures = [v] ∧ v ≠ [] ∧ (∀ b ∈ v, isSpace b = false) ∧
      ∀ u t, m.after = u ++ ch '%' :: t → ¬ ∀ b ∈ u, isSpace b = false := by
  rw [variablePattern_eq] at h
  obtain ⟨b, v, e, hs, hwhole, hcaptures, hne, hv, hb, he, hlast⟩ := matchHere_between h
  obtain rfl := (percent_match b).mp hb
  obtain rfl := (percent_match e).mp he
  refine ⟨v, hs, hwhole, hcaptures, hne, fun b hb => ?_, fun u t hafter hu => ?_⟩
  · simpa [nonSpace_match] using hv b hb
  · have hnone := hlast u (ch '%') t hafter fun y hy => by
      rw [nonSpace_match]
      rcases List.mem_cons.mp hy with rfl | hy
      · decide
      · simp [hu y hy]
    exact absurd hnone (by decide)

theorem matchHere_variable_none
    (h : matchHere variablePattern.items (ch '%' :: (v ++ ch '%' :: w)) = none) (hne : v ≠ []) :
    ¬ ∀ b ∈ v, isSpace b = false := by
  rw [variablePattern_eq] at h
  intro hv
  have hnone := matchHere_between_none h (by decide) hne fun b hb => by
    simp [nonSpace_match, hv b hb]
  exact absurd hnone (by decide)

/-! ### The replacement -/

def variableText (c : List Bytes) : Bytes := (processDefinedVariables (c.getD 0 [])).getD []

theorem percentVariables_eq (s : Bytes) :
    percentVariables s = replaceAll ⟨false, variablePattern.items⟩
      (fun m => variableText m.captures) s := rfl

theorem variableText_break : variableText [str "BR"] = str "<BR>" := by decide

theorem variableText_other (h : v ≠ str "BR") : variableText [v] = [] := by
  simp [variableText, processDefinedVariables, h]

theorem break_tail {c : Bytes} (h : str "%BR%" = u ++ ch '%' :: c) : c = str "BR%" ∨ c = [] := by
  have htails : ∀ c ∈ (str "%BR%").tails, ∀ d, c = ch '%' :: d → d = str "BR%" ∨ d = [] := by
    have hbytes : (str "%BR%").tails =
        [str "%BR%", str "BR%", str "R%", str "%", []] := by decide
    rw [hbytes]
    intro c hc d hd
    simp only [List.mem_cons, List.not_mem_nil, or_false] at hc
    rcases hc with rfl | rfl | rfl | rfl | rfl
    · exact .inl (List.cons.inj hd).2.symm
    · exact absurd (List.cons.inj hd).1 (by decide)
    · exact absurd (List.cons.inj hd).1 (by decide)
    · exact .inr (List.cons.inj hd).2.symm
    · cases hd
  exact htails _ ((List.mem_tails _ _).mpr ⟨u, h.symm⟩) c rfl

/-- The variables of a text after which no longer word ends. -/
theorem OnlyBreaks.break_iff
    (hlast : ∀ u t, w = u ++ ch '%' :: t → ¬ ∀ b ∈ u, isSpace b = false) :
    OnlyBreaks (str "%BR%" ++ w) ↔ OnlyBreaks w := by
  constructor
  · exact fun h u v t hw => h (str "%BR%" ++ u) v t (by rw [hw, List.append_assoc])
  · intro h u v t hsplit hne hv
    rcases List.append_eq_append_iff.mp hsplit with ⟨a, rfl, hw⟩ | ⟨c, hbreak, hc⟩
    · exact h a v t hw hne hv
    · cases c with
      | nil => exact h [] v t hc.symm hne hv
      | cons b c =>
        obtain ⟨rfl, hrest⟩ := List.cons.inj hc
        rcases break_tail hbreak with rfl | rfl
        · rcases List.append_eq_append_iff.mp hrest with ⟨a, ha, ht⟩ | ⟨a, rfl, ht⟩
          · cases a with
            | nil =>
              exact absurd (by simp) (hlast [] t ht.symm)
            | cons b a =>
              obtain ⟨rfl, _⟩ := List.cons.inj ht
              have hmark : str "BR" ++ ch '%' :: [] = v ++ ch '%' :: a := ha
              exact ((List.append_cons_inj_of_notMem (by decide) (by decide)).mp hmark).1.symm
          · refine absurd (fun b hb => hv b ?_) (hlast a t ht)
            exact List.mem_append_right _ hb
        · exact absurd hv (hlast v t hrest.symm)

theorem OnlyBreaks.cons_iff (h : matchHere variablePattern.items (b :: s) = none) :
    OnlyBreaks (b :: s) ↔ OnlyBreaks s := by
  constructor
  · exact fun hb u v w hs => hb (b :: u) v w (by rw [hs, List.cons_append])
  · intro hs u v w hsplit hne hv
    cases u with
    | nil =>
      rw [hsplit, List.nil_append] at h
      exact absurd hv (matchHere_variable_none h hne)
    | cons d u => exact hs u v w (List.cons.inj hsplit).2 hne hv

/-- A text is not made longer; and only breaks are replaced exactly when there is nothing else to
replace. -/
theorem percentVariables_spec (s : Bytes) : (percentVariables s).length ≤ s.length ∧
    (percentVariables s = expandBreaks s ↔ OnlyBreaks s) := by
  induction hn : s.length using Nat.strong_induction_on generalizing s with
  | _ n ih =>
    subst hn
    cases hm : matchHere variablePattern.items s with
    | none =>
      cases s with
      | nil =>
        rw [percentVariables_eq, replaceAll_nil hm, expandBreaks]
        refine ⟨le_rfl, iff_of_true rfl fun u v w h => ?_⟩
        simp at h
      | cons b s =>
        obtain ⟨hlen, hiff⟩ := ih s.length (by simp) s rfl
        have hother : ¬ str "%BR%" <+: b :: s := by
          rintro ⟨t, ht⟩
          have hsplit : b :: s = ch '%' :: (str "BR" ++ ch '%' :: t) := ht.symm
          rw [hsplit] at hm
          exact matchHere_variable_none hm (by decide) (by decide)
        rw [percentVariables_eq, replaceAll_miss hm, ← percentVariables_eq,
          expandBreaks_other hother, OnlyBreaks.cons_iff hm, ← hiff]
        exact ⟨by simpa using hlen, by simp⟩
    | some m =>
      obtain ⟨v, hs, hwhole, hcaptures, hne, hv, hlast⟩ := matchHere_variable hm
      have hhit := replaceAll_hit (f := fun m => variableText m.captures) hm (by simp [hwhole])
      obtain ⟨hlen, hiff⟩ := ih m.after.length (by simp [hs]; omega) m.after rfl
      rw [percentVariables_eq, hhit, ← percentVariables_eq, hcaptures]
      by_cases hbr : v = str "BR"
      · have hcons : s = str "%BR%" ++ m.after := by rw [hs, hbr]; rfl
        rw [hbr, variableText_break, hcons, expandBreaks_break, OnlyBreaks.break_iff hlast, ← hiff]
        refine ⟨?_, by simp⟩
        simpa [show (str "<BR>").length = (str "%BR%").length by decide] using hlen
      · have hshort : (percentVariables m.after).length < s.length := by
          have hslen := congrArg List.length hs
          simp only [List.length_cons, List.length_append] at hslen
          omega
        rw [variableText_other hbr, List.nil_append]
        refine ⟨hshort.le, iff_of_false (fun heq => ?_) fun h => hbr (h [] v m.after hs hne hv)⟩
        rw [heq, length_expandBreaks] at hshort
        exact lt_irrefl _ hshort

/-! ### Lines -/

/-- Blanks around a text have no part in its variables. -/
theorem onlyBreaks_pad : OnlyBreaks (str " " ++ s ++ str " ") ↔ OnlyBreaks s := by
  constructor
  · intro h u v w hs
    exact h (str " " ++ u) v (w ++ str " ") (by simp [hs])
  · intro h u v w hsplit
    cases u with
    | nil => exact absurd (List.cons.inj hsplit).1 (by decide)
    | cons b u =>
      have hrest : s ++ str " " = u ++ ch '%' :: (v ++ ch '%' :: w) := (List.cons.inj hsplit).2
      rcases List.eq_nil_or_concat w with rfl | ⟨w, x, rfl⟩
      · have hend : s ++ str " " = (u ++ ch '%' :: v) ++ str "%" := by
          rw [hrest]
          simp [show str "%" = [ch '%'] by decide]
        exact absurd (List.append_inj' hend rfl).2 (by decide)
      · have hend : s ++ str " " = (u ++ ch '%' :: (v ++ ch '%' :: w)) ++ [x] := by
          rw [hrest]
          simp
        exact h u v w (List.append_inj' hend rfl).1

theorem expandBreaks_pad (s : Bytes) :
    expandBreaks (str " " ++ s ++ str " ") = str " " ++ expandBreaks s ++ str " " := by
  have hblank : str " " = [ch ' '] := by decide
  have hfirst : ∀ t, ¬ str "%BR%" <+: ch ' ' :: t := by
    rintro t ⟨v, hv⟩
    exact absurd (List.cons.inj (hv : ch '%' :: (str "BR%" ++ v) = ch ' ' :: t)).1 (by decide)
  have hlast : expandBreaks (s ++ str " ") = expandBreaks s ++ str " " := by
    induction s using expandBreaks.induct with
    | case1 =>
      have hrest : expandBreaks (ch ' ' :: []) = [ch ' '] := by
        rw [expandBreaks_other (hfirst []), expandBreaks]
      simpa [hblank, expandBreaks] using hrest
    | case2 b s h ih =>
      obtain ⟨t, ht⟩ := h
      have hs : str "BR%" ++ t = s := (List.cons.inj ht).2
      have hdrop : s.drop 3 = t := by rw [← hs]; rfl
      rw [hdrop] at ih
      rw [← ht, List.append_assoc, expandBreaks_break, ih, expandBreaks_break, List.append_assoc]
    | case3 b s h ih =>
      have hother : ¬ str "%BR%" <+: b :: (s ++ str " ") := by
        rw [← List.cons_append, hblank, List.prefix_concat_iff, not_or]
        refine ⟨fun heq => ?_, h⟩
        have hmem : ch ' ' ∈ str "%BR%" := by simp [heq]
        exact absurd hmem (by decide)
      rw [List.cons_append, expandBreaks_other hother, ih, expandBreaks_other h, List.cons_append]
  have hcons : str " " ++ s ++ str " " = ch ' ' :: (s ++ str " ") := by simp [hblank]
  rw [hcons, expandBreaks_other (hfirst _), hlast]
  simp [hblank]

theorem PercentText.bytes (h : PercentText s) :
    ∀ b ∈ s, isPercentByte b = true ∨ b ∈ str "BR" := by
  induction h with
  | nil => simp
  | byte hb _ ih => simpa [hb] using ih
  | lineBreak _ ih =>
    have hbreak : ∀ b ∈ str "%BR%", isPercentByte b = true ∨ b ∈ str "BR" := by decide
    exact fun b hb => (List.mem_append.mp hb).elim (hbreak b) (ih b)

theorem PercentText.of_bytes (h : ∀ b ∈ s, isPercentByte b = true) : PercentText s := by
  induction s with
  | nil => exact .nil
  | cons b s ih =>
    exact .byte (h b (List.mem_cons_self ..)) (ih fun d hd => h d (List.mem_cons_of_mem _ hd))

theorem PercentText.apart (h : PercentText s) : Apart s := by
  have hupper : ∀ b, isPercentByte b = true → isUpper b = false := by
    refine forall_byte ?_
    decide +kernel
  induction h with
  | nil => exact ⟨.nil, by simp⟩
  | @byte b s hb _ ih =>
    exact Apart.append (u := [b]) (.of_bytes (by simpa using hupper b hb)) ih
  | lineBreak _ ih => exact Apart.append (by decide +kernel) ih

/-- The line is rendered with its breaks, and nothing of it is lost. -/
def BreaksRendered (env : FormatterEnv) (line : Bytes) (st : FormatterState) : Prop :=
  (formatWikiLine env line st).1 = str " " ++ expandBreaks line ++ str " "

/-- Only the breaks of a line are replaced exactly when there is nothing else between two percent
signs of one word. -/
theorem breaksRendered_iff (h : PercentText line) (hletter : StartsIn (isLower · = true) line)
    (env : FormatterEnv) (st : FormatterState) :
    BreaksRendered env line st ↔ OnlyBreaks line := by
  have hno : ∀ x, isPercentByte x = false → x ∉ str "BR" → x ∉ line := by
    intro x hx hx' hmem
    rcases h.bytes x hmem with hb | hb
    · rw [hx] at hb
      cases hb
    · exact hx' hb
  have hpad : ∀ x, isPercentByte x = false → x ∉ str "BR" → x ∉ str " " ++ line ++ str " " := by
    intro x hx hx'
    have hblank : ∀ x ∈ str " ", isPercentByte x = true := by decide
    have hxb : x ∉ str " " := fun hmem => by
      rw [hblank x hmem] at hx
      cases hx
    simp [hno x hx hx', hxb]
  have hblock : NoBlock line := by
    obtain ⟨b, t, rfl, hb⟩ := hletter
    refine ⟨List.cons_ne_nil _ _, fun d v hd => ?_, hno _ (by decide) (by decide),
      hno _ (by decide) (by decide)⟩
    obtain ⟨rfl, _⟩ := List.cons.inj hd
    obtain ⟨_, hspace, _, _, _, hdash, hhash⟩ := lower_facts b hb
    exact ⟨hspace, hdash, hhash⟩
  have hline : entities (embeddedUrls env.cls (embeddedHtml (blockQuote line))) = line := by
    have htoken : ¬ str "nopTOKEN" <:+: line := fun hin =>
      hno (ch 'T') (by decide) (by decide) (hin.subset (by decide))
    rw [blockQuote_plain (hno _ (by decide) (by decide)),
      embeddedHtml_plain (hno _ (by decide) (by decide)) (hno _ (by decide) (by decide))
        (hno _ (by decide) (by decide)) htoken,
      embeddedUrls_plain _ (hno _ (by decide) (by decide)),
      entities_plain (hno _ (by decide) (by decide)) (hno _ (by decide) (by decide))]
  have hstyled : emphasis (str " " ++ line ++ str " ") = str " " ++ line ++ str " " :=
    emphasis_plain (hpad _ (by decide) (by decide)) (hpad _ (by decide) (by decide))
      (hpad _ (by decide) (by decide))
  rw [BreaksRendered, formatWikiLine_linkless hblock hline hstyled
    (hpad _ (by decide) (by decide)) (.inr h.apart.misses), ← expandBreaks_pad, ← onlyBreaks_pad]
  exact (percentVariables_spec _).2

theorem breaksRendered_lineBreak : BreaksRendered (emptyEnv .wiki) (str "a%BR%") {} := by
  have htext : PercentText (str "a%BR%") := .byte (by decide) (.lineBreak .nil)
  have hnil : OnlyBreaks [] := fun u v w h => by simp at h
  have hbreak : OnlyBreaks (str "%BR%") := (OnlyBreaks.break_iff (by simp)).mpr hnil
  refine (breaksRendered_iff htext ⟨_, _, rfl, by decide⟩ (emptyEnv .wiki) {}).mpr ?_
  exact (OnlyBreaks.cons_iff (by decide +kernel)).mpr hbreak

/-- Two percentages of one word are dropped with the text between them. -/
theorem breaksRendered_lost :
    PercentText (str "only 5%,7% off") ∧
      ¬ BreaksRendered (emptyEnv .wiki) (str "only 5%,7% off") {} := by
  refine ⟨.of_bytes (by decide +kernel), fun hkept => ?_⟩
  have hlength := congrArg List.length hkept
  rw [List.length_append, List.length_append, length_expandBreaks] at hlength
  exact absurd hlength (by decide +kernel)

end MoonWiki
