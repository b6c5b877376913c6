import MoonWiki.LinePatterns

/-! The rules of the styles, and what each of them makes of a word between marks. -/
namespace MoonWiki
open Lua

variable {rule : StyleRule} {bs body u v w z : Bytes} {b c e : Byte} {line : Bytes}
  {env : FormatterEnv} {st : FormatterState}

/-! ### Passes of the styles -/

theorem Leads.blank {P : Byte → Prop} (hu : ∀ b ∈ u, wordItem.takes b = false)
    (hhead : StartsIn P u) : Leads P (ch ' ' :: u) := by
  have hsolid : Leads P u := .solid hu
  obtain ⟨b, s, rfl, hb⟩ := hhead
  refine ⟨hsolid.1.cons_cons fun _ => hb, fun d hd => hsolid.2 d ?_⟩
  rwa [List.getLast?_cons_cons] at hd

namespace StyleRule

def items (rule : StyleRule) : List Item := rule.segments.flatMap Segment.items

def repl (rule : StyleRule) : Bytes :=
  str "%1" ++ (rule.opening ++ str "%2" ++ rule.closing) ++ str "%3"

/-- What the rule makes of a line. -/
def pass (rule : StyleRule) (s : Bytes) : Bytes := gsubStr ⟨false, rule.items⟩ rule.repl s

def wrap (rule : StyleRule) (body : Bytes) : Bytes := rule.opening ++ (body ++ rule.closing)

end StyleRule

theorem emphasis_passes (line : Bytes) :
    emphasis line = styleRules.foldl (fun line rule => rule.pass line) line := by
  let step (line : Bytes) (rule : Bool × List Item × Bytes) : Bytes :=
    gsubStr ⟨rule.1, rule.2.1⟩ (str "%1" ++ rule.2.2 ++ str "%3") line
  have hpatterns : emphasisRules.foldl
      (fun line rule => gsubStr rule.1 (str "%1" ++ rule.2 ++ str "%3") line) line =
        (emphasisRules.map fun rule =>
          (rule.1.anchor, rule.1.items.map Item.reduce, rule.2)).foldl step line := by
    rw [List.foldl_map]
    refine List.foldl_ext _ _ _ fun s rule hrule => ?_
    have hanchor := style_anchor rule hrule
    dsimp only [step]
    rw [hanchor, gsubStr_reduce, ← hanchor]
  rw [emphasis_eq, hpatterns, emphasisRules_eq, List.foldl_map]
  rfl

theorem doMatch_wordItem {is : List Item} {caps : List Capture} {s : Bytes}
    (hc : wordItem.takes c = true) :
    doMatch (wordItem :: is) caps (c :: s) = doMatch is caps s := by
  rw [wordItem]
  exact doMatch_one hc

theorem doMatch_closingItem {is : List Item} {caps : List Capture} {s : Bytes}
    (hc : closingItem.takes c = true) :
    doMatch (closingItem :: is) caps (c :: s) = doMatch is caps s := by
  rw [closingItem]
  exact doMatch_one hc

/-- The mark ends a text: a byte that may follow comes after it. -/
def Closes (mark z : Bytes) : Prop := ∃ e t, z = mark ++ e :: t ∧ closingItem.takes e = true

def closers (mark : Bytes) : List Item :=
  literalItems mark ++ [.startCapture, closingItem, .endCapture]

theorem doMatch_closers (bs body : Bytes) (caps : List Capture) (t : Bytes)
    (he : closingItem.takes e = true) :
    doMatch (.endCapture :: closers bs) (caps ++ [.unfinished (body ++ (bs ++ e :: t))])
      (bs ++ e :: t) = some (t, caps ++ [.done body] ++ [.done [e]]) := by
  rw [doMatch_endCapture, closers, doMatch_literal, doMatch, doMatch_closingItem he]
  exact doMatch_endCapture [e] t

theorem doMatch_closers_none {caps : List Capture} (h : ¬ Closes bs z) :
    doMatch (.endCapture :: closers bs) caps z = none := by
  cases hd : doMatch (.endCapture :: closers bs) caps z with
  | none => rfl
  | some r =>
    rw [doMatch, closers] at hd
    obtain ⟨v, rfl, hv⟩ := doMatch_literal_sound hd
    rw [doMatch, closingItem] at hv
    obtain ⟨e, t, rfl, he, _⟩ := doMatch_one_sound hv
    exact absurd ⟨e, t, rfl, he⟩ h

/-- A long body is taken up to the first byte after which the mark closes it. -/
theorem doMatch_longBody {is : List Item} {caps : List Capture} {r : Bytes × List Capture}
    (hb : singleMatch b solidItem = true) (he : singleMatch e solidItem = true)
    (hfirst : ∀ x d y, w = x ++ d :: y → singleMatch d solidItem = true →
      doMatch is caps (y ++ e :: z) = none)
    (hr : doMatch is caps z = some r) :
    doMatch (longBody ++ is) caps (b :: (w ++ e :: z)) = some r := by
  have hsplit : longBody ++ is = .single solidItem .one :: .single .any .minus ::
      .single solidItem .one :: is := rfl
  rw [hsplit, doMatch_one hb]
  refine doMatch_minus_first (fun _ _ => rfl) (fun x y hxy hy => ?_) ((doMatch_one he).trans hr)
  obtain ⟨d, y, rfl⟩ := List.exists_cons_of_ne_nil hy
  cases hd : doMatch (.single solidItem .one :: is) caps (d :: y ++ e :: z) with
  | none => rfl
  | some r' =>
    obtain ⟨d', t, heq, hsolid, ht⟩ := doMatch_one_sound hd
    obtain ⟨rfl, hrest⟩ := List.cons.inj heq
    have hclosed : doMatch is caps (y ++ e :: z) = some r' := (congrArg _ hrest).trans ht
    rw [hfirst x d y hxy hsolid] at hclosed
    cases hclosed

theorem doMatch_solidBody {is : List Item} {caps : List Capture} {r : Bytes × List Capture}
    (hw : ∀ d ∈ w, singleMatch d solidItem = true)
    (hfirst : ∀ x y, w = x ++ y → y ≠ [] → doMatch is caps (y ++ z) = none)
    (hr : doMatch is caps z = some r) :
    doMatch (solidBody ++ is) caps (w ++ z) = some r :=
  doMatch_minus_first hw hfirst hr

namespace StyleRule

theorem items_eq (rule : StyleRule) : rule.items =
    .startCapture :: wordItem :: .endCapture :: (literalItems rule.mark ++
      .startCapture :: (rule.body ++ .endCapture :: closers rule.mark)) := by
  simp [items, segments, Segment.items, closers]

/-- A body that is closed is put into its element, and the byte after the mark is passed over. -/
theorem pass_hit {t : Bytes} (hrule : rule ∈ styleRules) (hc : wordItem.takes c = true)
    (hd : doMatch (rule.body ++ .endCapture :: closers rule.mark)
      ([.done [c]] ++ [.unfinished (body ++ (rule.mark ++ e :: t))])
      (body ++ (rule.mark ++ e :: t)) = some (t, [.done [c]] ++ [.done body] ++ [.done [e]])) :
    rule.pass (c :: (rule.mark ++ (body ++ (rule.mark ++ e :: t)))) =
      c :: (rule.wrap body ++ e :: rule.pass t) := by
  have hpercent : ∀ r ∈ styleRules, ch '%' ∉ r.opening ∧ ch '%' ∉ r.closing := by decide +kernel
  have hitems : doMatch rule.items [] ((c :: (rule.mark ++ (body ++ (rule.mark ++ [e])))) ++ t) =
      some (t, [.done [c]] ++ [.done body] ++ [.done [e]]) := by
    have hline : (c :: (rule.mark ++ (body ++ (rule.mark ++ [e])))) ++ t =
        c :: (rule.mark ++ (body ++ (rule.mark ++ e :: t))) := by simp
    rw [hline, items_eq, doMatch, doMatch_wordItem hc]
    refine (doMatch_endCapture [c] (rule.mark ++ (body ++ (rule.mark ++ e :: t)))).trans ?_
    rw [doMatch_literal, doMatch]
    exact hd
  have hmatch := matchHere_of_doMatch hitems
  have hline : (c :: (rule.mark ++ (body ++ (rule.mark ++ [e])))) ++ t =
      c :: (rule.mark ++ (body ++ (rule.mark ++ e :: t))) := by simp
  rw [hline] at hmatch
  rw [pass, gsubStr, replaceAll_hit hmatch (List.cons_ne_nil _ _), repl,
    addS_around _ (hpercent rule hrule).1 (hpercent rule hrule).2]
  simp [pushCaptures, wrap, pass, gsubStr, repl]

theorem head_pair (hrule : rule ∈ styleRules) : ∃ d ∈ str "=*_", headPair rule.items =
    some (.set false [.cls (ch 's'), .lit (ch '(')], .lit d) := by
  revert hrule
  revert rule
  decide +kernel

theorem pass_lead (hrule : rule ∈ styleRules) (hu : Leads (· ∉ str "=*_") u) (v : Bytes) :
    rule.pass (u ++ v) = u ++ rule.pass v := by
  obtain ⟨d, hd, hpair⟩ := head_pair hrule
  refine replaceAll_lead hpair (hu.1.imp fun b e h hb => ?_) hu.2 _ v
  have hne : d ≠ e := fun heq => h hb (heq ▸ hd)
  exact beq_false_of_ne hne

theorem pass_skip (hrule : rule ∈ styleRules) (hu : ∀ b ∈ u, wordItem.takes b = false)
    (v : Bytes) : rule.pass (u ++ v) = u ++ rule.pass v :=
  pass_lead hrule (.solid hu) v

/-- A blank without a mark after it is copied. -/
theorem pass_blank (hrule : rule ∈ styleRules) (hz : ∀ d t, z = d :: t → d ∉ str "=*_") :
    rule.pass (c :: z) = c :: rule.pass z := by
  obtain ⟨d, hd, hpair⟩ := head_pair hrule
  have hmiss : matchHere rule.items (c :: z) = none := by
    refine matchHere_pair hpair fun b e t h _ => ?_
    have hne : d ≠ e := fun heq => hz e t (List.cons.inj h).2 (heq ▸ hd)
    exact beq_false_of_ne hne
  exact replaceAll_miss hmiss

/-- A rule whose mark is not in the text leaves it. -/
theorem pass_absent (hrule : rule ∈ styleRules) (h : ¬ rule.mark <:+: u) : rule.pass u = u := by
  refine replaceAll_misses (fun v hv _ => ?_) _
  cases hm : matchHere rule.items v with
  | none => rfl
  | some m =>
    obtain ⟨ts, hfills, _⟩ := matchHere_fills (styleRules_simple rule hrule) hm
    obtain ⟨before, w, us, hwhole, _, _, x, rfl, _⟩ := hfills
    have hv' := matchHere_append hm
    refine absurd (List.IsInfix.trans ⟨before, x ++ m.after, ?_⟩ hv.isInfix) h
    rw [← hv', hwhole]
    simp

end StyleRule

/-! ### Styles of words -/

inductive Emphasis
  | star
  | underscore
  | underscores
  | equal
  | equals
  deriving DecidableEq

namespace Emphasis

def mark : Emphasis → Bytes
  | star => str "*"
  | underscore => str "_"
  | underscores => str "__"
  | equal => str "="
  | equals => str "=="

/-- The element of a word. -/
def element : Emphasis → Bytes → Bytes
  | star, w => strong w
  | underscore, w => em w
  | underscores, w => strong (em w)
  | equal, w => tt w
  | equals, w => tt (strong w)

def item (style : Emphasis) (w : Bytes) : Bytes := style.mark ++ (w ++ style.mark)

def opening : Emphasis → Bytes
  | star => str "<STRONG>"
  | underscore => str "<EM>"
  | underscores => str "<STRONG><EM>"
  | equal => str "<TT>"
  | equals => str "<TT><STRONG>"

def closing : Emphasis → Bytes
  | star => str "</STRONG>"
  | underscore => str "</EM>"
  | underscores => str "</EM></STRONG>"
  | equal => str "</TT>"
  | equals => str "</STRONG></TT>"

def long (style : Emphasis) : StyleRule := ⟨style.mark, longBody, style.opening, style.closing⟩
def solid (style : Emphasis) : StyleRule := ⟨style.mark, solidBody, style.opening, style.closing⟩

/-- The rules before those of the style. -/
def place : Emphasis → Nat
  | equals => 0
  | underscores => 2
  | star => 4
  | underscore => 6
  | equal => 8

theorem rules_split (style : Emphasis) : styleRules = styleRules.take style.place ++
    style.long :: style.solid :: styleRules.drop (style.place + 2) := by
  cases style <;> decide +kernel

theorem long_mem (style : Emphasis) : style.long ∈ styleRules := by
  rw [style.rules_split]
  simp

theorem solid_mem (style : Emphasis) : style.solid ∈ styleRules := by
  rw [style.rules_split]
  simp

theorem element_eq (style : Emphasis) (w : Bytes) :
    style.element w = style.opening ++ (w ++ style.closing) := by
  cases style <;>
    simp [element, strong, em, tt, htk, opening, closing] <;> rfl

theorem mark_facts (style : Emphasis) : ∀ x ∈ style.mark, x ∈ str "=*_" := by
  cases style <;> decide

end Emphasis

/-- Letters, and the brackets of `<nop>`. -/
def isEmphasizedByte (b : Byte) : Bool := isAlpha b || (str "<>").contains b

theorem emphasizedByte_facts (b : Byte) (h : isEmphasizedByte b = true) :
    wordItem.takes b = false ∧ closingItem.takes b = false ∧ singleMatch b solidItem = true ∧
      b ∉ str "=*_" := by
  revert h
  revert b
  refine forall_byte ?_
  decide +kernel

theorem not_closes {q : Bytes} (hq : q.length < bs.length) (hb : b ∉ bs) :
    ¬ Closes bs (q ++ b :: z) := by
  rintro ⟨e, t, h, _⟩
  have hat := congrArg (fun l : Bytes => l[q.length]?) h
  simp only [List.getElem?_append_right (Nat.le_refl _), Nat.sub_self, List.getElem?_cons_zero,
    List.getElem?_append_left hq] at hat
  exact hb (List.mem_of_getElem? hat.symm)

namespace Emphasis
variable {style : Emphasis} {t : Bytes}

theorem mark_length_pos (style : Emphasis) : 0 < style.mark.length := by
  cases style <;> decide

theorem not_mem_mark (hb : isEmphasizedByte b = true) : b ∉ style.mark :=
  fun hmem => (emphasizedByte_facts b hb).2.2.2 (style.mark_facts b hmem)

/-- A mark cut short by a word does not close. -/
theorem not_closes_cut (hu : u.length < style.mark.length)
    (hw : ∀ b ∈ w, isEmphasizedByte b = true) (hne : w ≠ []) :
    ¬ Closes style.mark (u ++ (w ++ z)) := by
  obtain ⟨b, w, rfl⟩ := List.exists_cons_of_ne_nil hne
  exact not_closes hu (not_mem_mark (hw b (List.mem_cons_self ..)))

theorem not_closes_word (hw : ∀ b ∈ w, isEmphasizedByte b = true) (hne : w ≠ []) :
    ¬ Closes style.mark (w ++ z) :=
  not_closes_cut (u := []) style.mark_length_pos hw hne

theorem item_append (style : Emphasis) (w s : Bytes) :
    style.item w ++ s = style.mark ++ (w ++ (style.mark ++ s)) := by
  simp [item]

theorem element_append (style : Emphasis) (w s : Bytes) :
    style.element w ++ s = style.opening ++ (w ++ style.closing) ++ s := by
  rw [element_eq]

/-- The first rule takes a text up to the first byte after which its mark closes it. -/
theorem long_hit {d : Byte} (hc : wordItem.takes c = true) (he : closingItem.takes e = true)
    (hb : singleMatch b solidItem = true) (hd : singleMatch d solidItem = true)
    (hfirst : ∀ x f y, u = x ++ f :: y → singleMatch f solidItem = true →
      ¬ Closes style.mark (y ++ d :: (style.mark ++ e :: t))) :
    style.long.pass (c :: (style.item (b :: (u ++ [d])) ++ e :: t)) =
      c :: (style.element (b :: (u ++ [d])) ++ e :: style.long.pass t) := by
  have hclosed := doMatch_closers style.mark (b :: (u ++ [d])) [.done [c]] t he
  have hbody := doMatch_longBody hb hd
    (fun x f y hxy hf => doMatch_closers_none (hfirst x f y hxy hf)) hclosed
  have hline : b :: (u ++ d :: (style.mark ++ e :: t)) =
      b :: (u ++ [d]) ++ (style.mark ++ e :: t) := by simp
  rw [hline] at hbody
  rw [item_append, element_append]
  exact StyleRule.pass_hit style.long_mem hc hbody

/-- A word of two bytes or more is put into its element by the first rule. -/
theorem long_word (hc : wordItem.takes c = true) (he : closingItem.takes e = true)
    (hw : ∀ b ∈ w, isEmphasizedByte b = true) (hlen : 2 ≤ w.length) :
    style.long.pass (c :: (style.item w ++ e :: t)) =
      c :: (style.element w ++ e :: style.long.pass t) := by
  obtain ⟨b, u, rfl⟩ := List.exists_cons_of_length_pos (Nat.lt_of_succ_lt hlen)
  obtain ⟨u, d, rfl⟩ := (List.eq_nil_or_concat u).resolve_left fun h => by simp [h] at hlen
  rw [List.concat_eq_append] at hw ⊢
  have hsolid : ∀ x ∈ b :: (u ++ [d]), singleMatch x solidItem = true :=
    fun x hx => (emphasizedByte_facts x (hw x hx)).2.2.1
  refine long_hit hc he (hsolid b (by simp)) (hsolid d (by simp)) fun x f y hxy _ => ?_
  have hrest : y ++ d :: (style.mark ++ e :: t) = (y ++ [d]) ++ (style.mark ++ e :: t) := by simp
  rw [hrest]
  refine not_closes_word (fun z hz => hw z ?_) (by simp)
  rw [hxy]
  exact List.mem_cons_of_mem _ (by simp at hz ⊢; tauto)

/-- After a word of one byte the first rule takes the next word as well. -/
theorem long_joined (hc : wordItem.takes c = true) (he : closingItem.takes e = true)
    (hb : isEmphasizedByte b = true) (hw : ∀ b ∈ w, isEmphasizedByte b = true) (hne : w ≠ []) :
    style.long.pass (c :: (style.item [b] ++ ch ' ' :: (style.item w ++ e :: t))) =
      c :: (style.element (b :: (style.mark ++ ch ' ' :: (style.mark ++ w))) ++
        e :: style.long.pass t) := by
  obtain ⟨u, d, rfl⟩ := (List.eq_nil_or_concat w).resolve_left hne
  rw [List.concat_eq_append] at hw ⊢
  have hsolid := fun x hx => (emphasizedByte_facts x (hw x hx)).2.2.1
  have hline : style.item [b] ++ ch ' ' :: (style.item (u ++ [d]) ++ e :: t) =
      style.item (b :: ((style.mark ++ ch ' ' :: (style.mark ++ u)) ++ [d])) ++ e :: t := by
    simp [item]
  have hbody : b :: (style.mark ++ ch ' ' :: (style.mark ++ (u ++ [d]))) =
      b :: ((style.mark ++ ch ' ' :: (style.mark ++ u)) ++ [d]) := by simp
  rw [hline, hbody]
  refine long_hit hc he (emphasizedByte_facts b hb).2.2.1 (hsolid d (by simp))
    fun x f y hxy hf => ?_
  have hblank : f ≠ ch ' ' := fun h => absurd (h ▸ hf) (by decide)
  have hword : ∀ y' ⊆ u, ∀ z ∈ y' ++ [d], isEmphasizedByte z = true := fun y' hy z hz =>
    hw z (List.mem_append.mpr ((List.mem_append.mp hz).imp_left fun h => hy h))
  have hsplit : ∀ v : Bytes, v ++ d :: (style.mark ++ e :: t) =
      (v ++ [d]) ++ (style.mark ++ e :: t) := fun v => by simp
  rcases List.append_eq_append_iff.mp hxy with ⟨a, rfl, ha⟩ | ⟨a, hmark, ha⟩
  · cases a with
    | nil => exact absurd (List.cons.inj ha).1.symm hblank
    | cons g a =>
      obtain ⟨rfl, hrest⟩ := List.cons.inj ha
      rcases List.append_eq_append_iff.mp hrest with ⟨a', rfl, hu⟩ | ⟨a', hmark, hu⟩
      · -- the byte is in the second word
        rw [hsplit]
        exact not_closes_word (hword y (by simp [hu])) (by simp)
      · cases a' with
        | nil =>
          rw [hsplit]
          exact not_closes_word (hword y (by simp [← hu.trans (List.nil_append u)])) (by simp)
        | cons g' a' =>
          -- the byte is in the mark before the second word
          have hy : y = a' ++ u := (List.cons.inj hu).2
          have hlen := congrArg List.length hmark
          rw [List.length_append, List.length_cons] at hlen
          rw [hy, List.append_assoc, hsplit]
          exact not_closes_cut (by omega) (hword u (List.Subset.refl u)) (by simp)
  · cases a with
    | nil => exact absurd (List.cons.inj ha).1 hblank
    | cons g a =>
      -- the byte is in the mark after the first word
      have hy : y = a ++ ch ' ' :: (style.mark ++ u) := (List.cons.inj ha).2
      have hlen := congrArg List.length hmark
      rw [List.length_append, List.length_cons] at hlen
      rw [hy, List.append_assoc, List.cons_append]
      exact not_closes (by omega) fun h => absurd (style.mark_facts _ h) (by decide)

/-- A word is put into its element by the second rule. -/
theorem solid_word (hc : wordItem.takes c = true) (he : closingItem.takes e = true)
    (hw : ∀ b ∈ w, isEmphasizedByte b = true) :
    style.solid.pass (c :: (style.item w ++ e :: t)) =
      c :: (style.element w ++ e :: style.solid.pass t) := by
  have hclosed := doMatch_closers style.mark w [.done [c]] t he
  have hbody := doMatch_solidBody (w := w)
    (fun x hx => (emphasizedByte_facts x (hw x hx)).2.2.1)
    (fun x y hxy hy => doMatch_closers_none
      (not_closes_word (fun b hb => hw b (hxy ▸ List.mem_append_right _ hb)) hy)) hclosed
  rw [item_append, element_append]
  exact StyleRule.pass_hit style.solid_mem hc hbody

/-- A last word of one byte is left by the first rule. -/
theorem long_last (b : Byte) :
    style.long.pass (ch ' ' :: (style.item [b] ++ [ch ' '])) =
      ch ' ' :: (style.item [b] ++ [ch ' ']) := by
  refine replaceAll_misses (fun v hv _ => ?_) _
  cases hm : matchHere style.long.items v with
  | none => rfl
  | some m =>
    obtain ⟨⟨r, caps⟩, hd, rfl⟩ := Option.map_eq_some_iff.mp hm
    have hlong := doMatch_minLength hd
    have hshort := hv.length_le
    have hmin : minLength style.long.items = 2 * style.mark.length + 4 := by
      cases style <;> decide
    simp only [item, List.length_cons, List.length_append, List.length_nil] at hshort
    omega

end Emphasis

end MoonWiki
