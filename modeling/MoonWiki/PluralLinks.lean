import MoonWiki.Lua.Passes
import MoonWiki.OpenedFiles
import MoonWiki.PageLinks

/-! Links from a plural name to the page of its singular. -/
namespace MoonWiki
open Lua

/-! ### Plurals -/

/-- The endings of names whose plural is taken for that of another name. -/
def otherPlurals : List Bytes := [str "ie", str "sse", str "Xe", str "xe"]

/-- The name ends in a letter other than `s`, and in no ending of another rule. -/
def TakesPluralS (t : Bytes) : Prop :=
  (∃ u b, t = u ++ [b] ∧ isAlpha b = true ∧ b ≠ ch 's') ∧ ∀ e ∈ otherPlurals, ¬ e <:+ t

def pluralX : Single := .set false [.lit (ch 'X'), .lit (ch 'x')]

def pluralOther : Single :=
  .set false [.range (ch 'A') (ch 'Z'), .range (ch 'a') (ch 'r'), .range (ch 't') (ch 'z')]

theorem singular_eq (t : Bytes) :
    singular t =
      gsubStr ⟨false, capturedTail pluralOther (str "s")⟩ (str "%1")
        (gsubStr ⟨false, capturedTail pluralX (str "es")⟩ (str "%1")
          (gsubStr ⟨false, literalItems (str "sses") ++ [.eos]⟩ (str "ss")
            (gsubStr ⟨false, literalItems (str "ies") ++ [.eos]⟩ (str "y") t))) := by
  have h₁ : pat "ies$" = ⟨false, literalItems (str "ies") ++ [.eos]⟩ := by decide
  have h₂ : pat "sses$" = ⟨false, literalItems (str "sses") ++ [.eos]⟩ := by decide
  have h₃ : pat "([Xx])es$" = ⟨false, capturedTail pluralX (str "es")⟩ := by decide
  have h₄ : pat "([A-Za-rt-z])s$" = ⟨false, capturedTail pluralOther (str "s")⟩ := by decide
  rw [singular, h₁, h₂, h₃, h₄]

theorem pluralX_iff (b : Byte) : singleMatch b pluralX = true ↔ b = ch 'X' ∨ b = ch 'x' := by
  revert b
  refine forall_byte ?_
  decide +kernel

theorem pluralOther_iff (b : Byte) :
    singleMatch b pluralOther = true ↔ isAlpha b = true ∧ b ≠ ch 's' := by
  revert b
  refine forall_byte ?_
  decide +kernel

/-- The end of a text is looked at only as far as the ending goes. -/
theorem not_suffix_append {e v : Bytes} (hlen : e.length ≤ v.length) (h : ¬ e <:+ v) (u : Bytes) :
    ¬ e <:+ u ++ v :=
  fun hs => h (List.suffix_of_suffix_length_le hs (List.suffix_append u v) hlen)

/-- The rule for other plurals needs a letter other than `s` before the last `s`. -/
theorem other_rule_none {u v : Bytes} (h : ∀ b, isAlpha b = true → b ≠ ch 's' →
    ¬ b :: str "s" <:+ u ++ v) :
    gsubStr ⟨false, capturedTail pluralOther (str "s")⟩ (str "%1") (u ++ v) = u ++ v :=
  gsubStr_no_capturedTail fun b hb =>
    h b ((pluralOther_iff b).mp hb).1 ((pluralOther_iff b).mp hb).2

theorem x_rule_none {u v : Bytes} (h : ¬ str "es" <:+ u ++ v) :
    gsubStr ⟨false, capturedTail pluralX (str "es")⟩ (str "%1") (u ++ v) = u ++ v :=
  gsubStr_no_capturedTail fun b _ hs => h ((List.suffix_cons b _).trans hs)

theorem singular_ies (u : Bytes) : singular (u ++ str "ies") = u ++ str "y" := by
  have hend : ¬ str "s" <:+ u ++ str "y" := not_suffix_append (by decide) (by decide) u
  have hs : ∀ e, str "s" <:+ e → ¬ e <:+ u ++ str "y" := fun e he h => hend (he.trans h)
  rw [singular_eq, gsubStr_suffix (by decide) (by decide), gsubStr_no_suffix (hs _ (by decide)),
    x_rule_none (hs _ (by decide)), other_rule_none]
  exact fun b _ _ => hs _ (List.suffix_cons b _)

theorem singular_sses (u : Bytes) : singular (u ++ str "sses") = u ++ str "ss" := by
  have hies : ¬ str "ies" <:+ u ++ str "sses" := not_suffix_append (by decide) (by decide) u
  have hsses : ¬ str "es" <:+ u ++ str "ss" := not_suffix_append (by decide) (by decide) u
  rw [singular_eq, gsubStr_no_suffix hies, gsubStr_suffix (by decide) (by decide),
    x_rule_none hsses, other_rule_none]
  intro b _ hb hs
  have htail : b :: str "s" <:+ str "ss" :=
    List.suffix_of_suffix_length_le hs (List.suffix_append u _) (Nat.le_refl 2)
  have heq : b :: str "s" = str "ss" := htail.eq_of_length rfl
  exact hb (List.cons.inj heq).1

theorem singular_xes {x : Byte} (hx : x = ch 'X' ∨ x = ch 'x') (u : Bytes) :
    singular (u ++ x :: str "es") = u ++ [x] := by
  have hlast : ∀ e : Bytes, e.length ≤ 3 → ¬ e <:+ x :: str "es" → ¬ e <:+ u ++ x :: str "es" :=
    fun e he h => not_suffix_append he h u
  have hies : ¬ str "ies" <:+ u ++ x :: str "es" := by
    refine hlast _ (by decide) ?_
    rcases hx with rfl | rfl <;> decide
  have hses : ¬ str "ses" <:+ u ++ x :: str "es" := by
    refine hlast _ (by decide) ?_
    rcases hx with rfl | rfl <;> decide
  have hsses : ¬ str "sses" <:+ u ++ x :: str "es" := fun h =>
    hses (.trans (by decide) h)
  have hend : ¬ str "s" <:+ u ++ [x] := by
    refine not_suffix_append (e := str "s") (v := [x]) (Nat.le_refl 1) ?_ u
    rcases hx with rfl | rfl <;> decide
  rw [singular_eq, gsubStr_no_suffix hies, gsubStr_no_suffix hsses,
    gsubStr_capturedTail ((pluralX_iff x).mpr hx), other_rule_none]
  exact fun b _ _ h => hend ((List.suffix_cons b _).trans h)

theorem suffix_plural {e t : Bytes} : e ++ str "s" <:+ t ++ str "s" ↔ e <:+ t :=
  List.suffix_append_self_iff

/-- Without another rule, an `s` is taken from a letter other than `s`. -/
theorem singular_other {t : Bytes} (h : ∀ e ∈ otherPlurals, ¬ e <:+ t) :
    singular (t ++ str "s") =
      gsubStr ⟨false, capturedTail pluralOther (str "s")⟩ (str "%1") (t ++ str "s") := by
  have hies : ¬ str "ies" <:+ t ++ str "s" := fun hs => h (str "ie") (by decide)
    (suffix_plural.mp hs)
  have hsses : ¬ str "sses" <:+ t ++ str "s" := fun hs => h (str "sse") (by decide)
    (suffix_plural.mp hs)
  have hx : ∀ b, singleMatch b pluralX = true → ¬ b :: str "es" <:+ t ++ str "s" := by
    intro b hb hs
    rcases (pluralX_iff b).mp hb with rfl | rfl
    · exact h (str "Xe") (by decide) (suffix_plural.mp hs)
    · exact h (str "xe") (by decide) (suffix_plural.mp hs)
  rw [singular_eq, gsubStr_no_suffix hies, gsubStr_no_suffix hsses, gsubStr_no_capturedTail hx]

/-- The singular of a plural with `s` is the name itself, unless another rule comes in. -/
theorem singular_plural_iff (t : Bytes) : singular (t ++ str "s") = t ↔ TakesPluralS t := by
  by_cases hother : ∀ e ∈ otherPlurals, ¬ e <:+ t
  · rw [TakesPluralS, and_iff_left hother, singular_other hother]
    constructor
    · intro heq
      by_contra hletter
      have hne : t ++ str "s" ≠ t := fun h => by
        have hnil : str "s" = [] := by simpa using h
        cases hnil
      refine hne (.trans (other_rule_none fun b hb hs hsuffix => hletter ?_).symm heq)
      obtain ⟨u, hu⟩ : [b] <:+ t := suffix_plural.mp hsuffix
      exact ⟨u, b, hu.symm, hb, hs⟩
    · rintro ⟨u, b, rfl, hb, hs⟩
      rw [List.append_assoc]
      exact gsubStr_capturedTail ((pluralOther_iff b).mpr ⟨hb, hs⟩) u
  · refine iff_of_false (fun heq => ?_) fun h => hother h.2
    push Not at hother
    obtain ⟨e, he, u, rfl⟩ := hother
    simp only [otherPlurals, List.mem_cons, List.not_mem_nil, or_false] at he
    rw [List.append_assoc] at heq
    rcases he with rfl | rfl | rfl | rfl
    · exact absurd (List.append_cancel_left ((singular_ies u).symm.trans heq)) (by decide)
    · exact absurd (List.append_cancel_left ((singular_sses u).symm.trans heq)) (by decide)
    · exact absurd (List.append_cancel_left ((singular_xes (.inl rfl) u).symm.trans heq))
        (by decide)
    · exact absurd (List.append_cancel_left ((singular_xes (.inr rfl) u).symm.trans heq))
        (by decide)

/-! ### Links -/

variable {env : FormatterEnv}

theorem formatS_withAnchor {t : Bytes} (ht : Plain t) (call : LinkCall) :
    ∃ r, formatS (call.withAnchor t) = t ++ r ∧ ∀ b r', r = b :: r' → isAlnum b = false := by
  have hzero : ∀ b ∈ t, b ≠ 0 := fun b hb => ne_of_test (ht b hb) (by decide)
  rw [LinkCall.withAnchor]
  cases call.anchor with
  | none =>
    refine ⟨[], ?_, by simp⟩
    rw [formatS, cString_eq_self hzero, ite_self, List.append_nil]
  | some a =>
    have hsharp : str "#" = [ch '#'] := by decide
    have hmark : ∀ b r' x, str "#" ++ x = b :: r' → isAlnum b = false := by
      intro b r' x h
      rw [hsharp] at h
      obtain ⟨rfl, _⟩ := List.cons.inj h
      decide
    dsimp only
    rw [List.append_assoc, formatS]
    split_ifs
    · exact ⟨_, rfl, fun b r' => hmark b r' a⟩
    · refine ⟨str "#" ++ cString a, ?_, fun b r' => hmark b r' _⟩
      rw [cString_append hzero, cString_append (by decide)]

/-- The name at the head of an attribute value. -/
theorem takeWhile_quoted {t r : Bytes} (ht : Plain t)
    (hr : ∀ b r', r = b :: r' → isAlnum b = false) (x : Bytes) :
    (t ++ (r ++ (str "\"" ++ x))).takeWhile isAlnum = t := by
  rw [List.takeWhile_append_of_pos ht]
  cases r with
  | nil => exact List.append_nil t
  | cons b r => rw [List.cons_append, List.takeWhile_cons_of_neg (by simp [hr b r rfl]),
      List.append_nil]

/-- A link tells which page it leads to. -/
theorem existentPageLink_injective {t t' text text' : Bytes} (ht : Plain t) (ht' : Plain t')
    (call : LinkCall) (h : existentPageLink .wiki (call.withAnchor t) text =
      existentPageLink .wiki (call.withAnchor t') text') : t = t' := by
  obtain ⟨r, hr, hend⟩ := formatS_withAnchor ht call
  obtain ⟨r', hr', hend'⟩ := formatS_withAnchor ht' call
  simp only [existentPageLink, htk, attr, List.flatMap_cons, List.flatMap_nil, List.append_nil,
    List.append_assoc, List.append_cancel_left_eq, hr, hr'] at h
  have hhead := congrArg (List.takeWhile isAlnum) h
  rwa [takeWhile_quoted ht hend, takeWhile_quoted ht' hend'] at hhead

theorem nonExistentPageLink_ne {t text : Bytes} {attrs : List (String × Bytes)}
    {contain : List Bytes} : nonExistentPageLink .wiki t text ≠ htk "A" attrs contain := by
  intro h
  simp only [nonExistentPageLink, htk, List.append_assoc, List.append_cancel_left_eq] at h
  have hspan : str "SPAN" = ch 'S' :: str "PAN" := by decide
  have ha : str "A" = [ch 'A'] := by decide
  rw [hspan, ha, List.cons_append, List.cons_append] at h
  exact absurd (List.cons.inj h).1 (by decide)

/-- What the link of a plural leads to: the page of the singular, at the anchor if there is one. -/
def LinksTo (t : Bytes) (anchor : Option Bytes) (html : Bytes) : Prop :=
  ∃ text, html =
    htk "A" [("class", str "twikiLink"), ("href", LinkCall.withAnchor ⟨t, anchor, none⟩ t)] [text]

/-- The link of a plural leads to the page of its singular exactly when the name takes a plain
`s`; and no link to a page leads to a page that is not in the store. -/
theorem pluralLink_iff {t : Bytes} (hcls : env.cls = .wiki) (htitle : isValidTitle t = true)
    (hexists : env.topicExists t = true) (hplural : env.topicExists (t ++ str "s") = false)
    (hplural' : env.isSpecialPage (t ++ str "s") = false) (anchor text : Option Bytes)
    (st : FormatterState) :
    (LinksTo t anchor (internalLink env (t ++ str "s") anchor text st).1 ↔ TakesPluralS t) ∧
      ((∃ t', env.topicExists t' = true ∧
        LinksTo t' anchor (internalLink env (t ++ str "s") anchor text st).1) ∨
        (internalLink env (t ++ str "s") anchor text st).1 =
          nonExistentPageLink .wiki (t ++ str "s") (text.getD (t ++ str "s"))) := by
  have ht : Plain t := (isValidTitle_iff.mp htitle).alnum
  have hs : lastByte (t ++ str "s") = str "s" := by
    rw [lastByte, List.length_append]
    exact List.drop_left
  have hlink := WikiFormatter.internalLink_eq env ⟨t ++ str "s", anchor, text⟩ st
  rw [internalLink, hcls, ← singular_plural_iff]
  rw [LinkCall.target, if_neg (by simp [hplural']), existingTopic, if_neg (by simp [hplural]),
    hcls] at hlink
  by_cases hfound : env.topicExists (singular (t ++ str "s")) = true
  · rw [if_pos ⟨hs, hfound⟩] at hlink
    refine ⟨⟨?_, fun heq => ?_⟩, .inl ⟨_, hfound, _, hlink⟩⟩
    · rintro ⟨text', htext⟩
      have hsingular : Plain (singular (t ++ str "s")) := singular_plain fun b hb => by
        rcases List.mem_append.mp hb with hb | hb
        · exact ht b hb
        · exact (by decide : ∀ b ∈ str "s", isAlnum b) b hb
      exact existentPageLink_injective hsingular ht ⟨t, anchor, none⟩ (hlink.symm.trans htext)
    · rw [heq] at hlink
      exact ⟨_, hlink⟩
  · rw [if_neg fun h => hfound h.2] at hlink
    refine ⟨iff_of_false ?_ fun heq => hfound (by rw [heq, hexists]), .inr hlink⟩
    rintro ⟨text', htext⟩
    exact nonExistentPageLink_ne (hlink.symm.trans htext)

theorem pluralLink_fooBar :
    let env : FormatterEnv := ⟨.wiki, fun _ => false, fun t => t = str "FooBar"⟩
    LinksTo (str "FooBar") none (internalLink env (str "FooBar" ++ str "s") none none {}).1 := by
  intro env
  have hregular : TakesPluralS (str "FooBar") :=
    ⟨⟨str "FooBa", ch 'r', by decide, by decide, by decide⟩, by decide⟩
  have hexists : env.topicExists (str "FooBar") = true := by decide
  have hplural : env.topicExists (str "FooBar" ++ str "s") = false := by decide
  have htitle : isValidTitle (str "FooBar") = true := by decide +kernel
  exact (pluralLink_iff rfl htitle hexists hplural rfl none none {}).1.mpr hregular

/-- The plural of this name is taken for that of `FooMovy`. -/
theorem pluralLink_fooMovie :
    let env : FormatterEnv := ⟨.wiki, fun _ => false, fun t => t = str "FooMovie"⟩
    isValidTitle (str "FooMovie") = true ∧ env.topicExists (str "FooMovie") = true ∧
      env.topicExists (str "FooMovies") = false ∧
      ¬ LinksTo (str "FooMovie") none (internalLink env (str "FooMovies") none none {}).1 := by
  intro env
  refine ⟨by decide +kernel, by decide, by decide, ?_⟩
  have hmissing : (internalLink env (str "FooMovies") none none {}).1 =
      nonExistentPageLink .wiki (str "FooMovies") (str "FooMovies") := by decide +kernel
  rintro ⟨text, htext⟩
  exact nonExistentPageLink_ne (hmissing.symm.trans htext)

end MoonWiki
