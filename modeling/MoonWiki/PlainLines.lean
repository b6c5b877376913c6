import MoonWiki.Lua.Parts
import MoonWiki.PageLinks
import MoonWiki.Tables
import MoonWiki.WikiWord

/-! What the steps of a line do to text without their marks. -/
namespace MoonWiki
open Lua

variable {line : Bytes} {env : FormatterEnv} {st : FormatterState}

/-! ### Text before blocks -/

theorem blockQuote_plain (h : ch '>' ∉ line) : blockQuote line = line :=
  replaceAll_misses (Pattern.Misses.of_needs (x := ch '>') (by decide) h) _

theorem nopTOKEN_pattern : pat "nopTOKEN" = ⟨false, literalItems (str "nopTOKEN")⟩ := by decide

theorem gsubStr_nopTOKEN_split {x : Byte} (hx : x ∉ str "nopTOKEN") (u v : Bytes) :
    gsubStr (pat "nopTOKEN") (str "<nop>") (u ++ x :: v) =
      gsubStr (pat "nopTOKEN") (str "<nop>") u ++
        x :: gsubStr (pat "nopTOKEN") (str "<nop>") v := by
  rw [nopTOKEN_pattern]
  exact gsubStr_literal_split (by decide) hx (by decide) u v

theorem gsubStr_nopTOKEN_absent (h : ¬ str "nopTOKEN" <:+: line) :
    gsubStr (pat "nopTOKEN") (str "<nop>") line = line := by
  rw [nopTOKEN_pattern]
  exact replaceAll_misses (.of_absent h) _

/-- In a text without tags and tokens only the mark for them is replaced. -/
theorem embeddedHtml_words (hlt : ch '<' ∉ line) (hgt : ch '>' ∉ line) (htilde : ch '~' ∉ line) :
    embeddedHtml line = gsubStr (pat "nopTOKEN") (str "<nop>") line := by
  have hopen : (pat "<!%-%-").Misses line := .of_needs (x := ch '<') (by decide) hlt
  have hclose : (pat "%-%->").Misses line := .of_needs (x := ch '>') (by decide) hgt
  have hopens : (pat "(<<+)").Misses line := .of_needs (x := ch '<') (by decide) hlt
  have hcloses : (pat "(>>+)").Misses line := .of_needs (x := ch '>') (by decide) hgt
  have hmark : (pat "<nop>").Misses line := .of_needs (x := ch '<') (by decide) hlt
  have htag : (pat "<(%S.-)>").Misses line := .of_needs (x := ch '<') (by decide) hlt
  have hlower : (pat "<").Misses line := .of_needs (x := ch '<') (by decide) hlt
  have hgreater : (pat ">").Misses line := .of_needs (x := ch '>') (by decide) hgt
  have htokens : (pat "~$~(%S.-)~$~").Misses line := .of_needs (x := ch '~') (by decide) htilde
  have htilde' : ch '~' ∉ gsubStr (pat "nopTOKEN") (str "<nop>") line := by
    rw [nopTOKEN_pattern]
    have hne : ∀ b ∈ line, b ≠ ch '~' := fun b hb h => htilde (h ▸ hb)
    refine fun h => replaceAll_bytes hne (fun m _ _ => ?_) _ h rfl
    rw [addS_plain m (by decide)]
    decide
  have hcomment := Pattern.Misses.of_needs (p := pat "~$~!%-%-") (x := ch '~') (by decide) htilde'
  have hends := Pattern.Misses.of_needs (p := pat "%-%-~$~") (x := ch '~') (by decide) htilde'
  simp only [gsubStr] at hcomment hends
  simp only [embeddedHtml, gsubStr]
  rw [replaceAll_misses hopen, replaceAll_misses hclose, replaceAll_misses hopens,
    replaceAll_misses hcloses, replaceAll_misses hmark, replaceAll_misses htag,
    replaceAll_misses hlower, replaceAll_misses hgreater, replaceAll_misses htokens,
    replaceAll_misses hcomment, replaceAll_misses hends]

theorem embeddedHtml_plain (hlt : ch '<' ∉ line) (hgt : ch '>' ∉ line) (htilde : ch '~' ∉ line)
    (hnop : ¬ str "nopTOKEN" <:+: line) : embeddedHtml line = line := by
  rw [embeddedHtml_words hlt hgt htilde, gsubStr_nopTOKEN_absent hnop]

theorem embeddedUrls_plain (cls : FormatterClass) (h : ch ':' ∉ line) :
    embeddedUrls cls line = line :=
  replaceAll_misses (Pattern.Misses.of_needs (x := ch ':') (by decide) h) _

theorem headings_plain (h : ch '+' ∉ line) : headings line = line :=
  replaceAll_misses (Pattern.Misses.of_needs (x := ch '+') (by decide) h) _

theorem percentVariables_plain (h : ch '%' ∉ line) : percentVariables line = line :=
  replaceAll_misses (Pattern.Misses.of_needs (x := ch '%') (by decide) h) _

theorem hyperLinks_plain (h : ch '[' ∉ line) : hyperLinks env line st = (line, st) :=
  gsubState_misses (Pattern.Misses.of_needs (x := ch '[') (by decide) h) _ _

theorem entities_plain (hamp : ch '&' ∉ line) (htilde : ch '~' ∉ line) : entities line = line := by
  have hnamed : (pat "&(%w%w-);").Misses line := .of_needs (x := ch '&') (by decide) hamp
  have hnumber : (pat "&#(%d+);").Misses line := .of_needs (x := ch '&') (by decide) hamp
  have halone : (pat "&").Misses line := .of_needs (x := ch '&') (by decide) hamp
  have htoken : (pat "~$~").Misses line := .of_needs (x := ch '~') (by decide) htilde
  simp only [entities, gsubStr]
  rw [replaceAll_misses hnamed, replaceAll_misses hnumber, replaceAll_misses halone,
    replaceAll_misses htoken]

/-- The patterns of `emphasis` with what they put around the text. -/
def emphasisRules : List (Pattern × Bytes) :=
  [(pat "([%s(])==([^%s].-[^%s])==([%s,.;:!?])", tt (strong (str "%2"))),
    (pat "([%s(])==([^%s]-)==([%s,.;:!?])", tt (strong (str "%2"))),
    (pat "([%s(])__([^%s].-[^%s])__([%s,.;:!?])", strong (em (str "%2"))),
    (pat "([%s(])__([^%s]-)__([%s,.;:!?])", strong (em (str "%2"))),
    (pat "([%s(])%*([^%s].-[^%s])%*([%s,.;:!?])", strong (str "%2")),
    (pat "([%s(])%*([^%s]-)%*([%s,.;:!?])", strong (str "%2")),
    (pat "([%s(])_([^%s].-[^%s])_([%s,.;:!?])", em (str "%2")),
    (pat "([%s(])_([^%s]-)_([%s,.;:!?])", em (str "%2")),
    (pat "([%s(])=([^%s].-[^%s])=([%s,.;:!?])", tt (str "%2")),
    (pat "([%s(])=([^%s]-)=([%s,.;:!?])", tt (str "%2"))]

theorem emphasis_eq (line : Bytes) :
    emphasis line =
      emphasisRules.foldl
        (fun line rule => gsubStr rule.1 (str "%1" ++ rule.2 ++ str "%3") line) line := by
  simp only [emphasis, emphasisRules, List.foldl_cons, List.foldl_nil]

theorem emphasis_misses (h : ∀ rule ∈ emphasisRules, rule.1.Misses line) :
    emphasis line = line := by
  have hfold : ∀ rules : List (Pattern × Bytes), (∀ rule ∈ rules, rule.1.Misses line) →
      rules.foldl (fun line rule => gsubStr rule.1 (str "%1" ++ rule.2 ++ str "%3") line) line =
        line := by
    intro rules
    induction rules with
    | nil => exact fun _ => rfl
    | cons rule rules ih =>
      intro hrules
      rw [List.foldl_cons, gsubStr, replaceAll_misses (hrules rule (List.mem_cons_self ..))]
      exact ih fun r hr => hrules r (List.mem_cons_of_mem _ hr)
  rw [emphasis_eq]
  exact hfold emphasisRules h

theorem emphasisRules_misses (heq : ch '=' ∉ line) (hstar : ch '*' ∉ line)
    (hunder : ch '_' ∉ line) : ∀ rule ∈ emphasisRules, rule.1.Misses line := by
  intro rule hrule
  have hneeds : ∀ rule ∈ emphasisRules,
      rule.1.needs (ch '=') ∨ rule.1.needs (ch '*') ∨ rule.1.needs (ch '_') := by decide
  rcases hneeds rule hrule with h | h | h
  · exact .of_needs h heq
  · exact .of_needs h hstar
  · exact .of_needs h hunder

theorem emphasis_plain (heq : ch '=' ∉ line) (hstar : ch '*' ∉ line) (hunder : ch '_' ∉ line) :
    emphasis line = line :=
  emphasis_misses (emphasisRules_misses heq hstar hunder)

/-! ### Words after a blank -/

def wordItem : Item := .single (.set false [.cls (ch 's'), .lit (ch '(')]) .one

theorem plainPattern_pair : headPair plainPattern.items =
    some (.set false [.cls (ch 's'), .lit (ch '(')], .cls (ch 'u')) := by
  decide

/-- Without an upper-case letter after a blank there is no WikiWord. -/
theorem plainPattern_misses
    (h : line.IsChain fun b e => wordItem.takes b = true → isUpper e = false) :
    plainPattern.Misses line := by
  refine .of_pair plainPattern_pair fun l b e l' heq hb => ?_
  exact List.isChain_iff_forall_rel_of_append_cons_cons.mp h heq hb

section
variable {u v : Bytes}

/-- No upper-case letter follows a blank, at whatever the text is put after. -/
def Apart (v : Bytes) : Prop :=
  v.IsChain (fun b e => wordItem.takes b = true → isUpper e = false) ∧
    ∀ e ∈ v.head?, isUpper e = false

instance (v : Bytes) : Decidable (Apart v) :=
  inferInstanceAs (Decidable (_ ∧ ∀ e ∈ v.head?, isUpper e = false))

theorem Apart.append (hu : Apart u) (hv : Apart v) : Apart (u ++ v) := by
  refine ⟨hu.1.append hv.1 fun _ _ e he _ => hv.2 e he, fun e he => ?_⟩
  cases u with
  | nil => exact hv.2 e he
  | cons b u => exact hu.2 e he

theorem Apart.of_bytes (h : ∀ b ∈ v, isUpper b = false) : Apart v := by
  refine ⟨?_, fun e he => h e (List.mem_of_head? he)⟩
  rw [List.isChain_iff_forall_rel_of_append_cons_cons]
  intro b e w z heq _
  exact h e (by simp [heq])

/-- After a blank comes a byte of this kind, at whatever the text is put before. -/
def Leads (P : Byte → Prop) (v : Bytes) : Prop :=
  v.IsChain (fun b e => wordItem.takes b = true → P e) ∧
    ∀ b ∈ v.getLast?, wordItem.takes b = false

instance (P : Byte → Prop) [DecidablePred P] (v : Bytes) : Decidable (Leads P v) :=
  inferInstanceAs (Decidable (_ ∧ ∀ b ∈ v.getLast?, wordItem.takes b = false))

theorem Leads.append {P : Byte → Prop} (hu : Leads P u) (hv : Leads P v) : Leads P (u ++ v) := by
  refine ⟨hu.1.append hv.1 fun b hb e _ htakes => ?_, fun b hb => ?_⟩
  · rw [hu.2 b hb] at htakes
    cases htakes
  · by_cases hne : v = []
    · subst hne
      exact hu.2 b (by simpa using hb)
    · rw [List.getLast?_append_of_ne_nil _ hne] at hb
      exact hv.2 b hb

theorem Leads.solid {P : Byte → Prop} (h : ∀ b ∈ v, wordItem.takes b = false) : Leads P v := by
  refine ⟨?_, fun b hb => h b (List.mem_of_getLast? hb)⟩
  rw [List.isChain_iff_forall_rel_of_append_cons_cons]
  intro b e l l' heq htakes
  rw [h b (by simp [heq])] at htakes
  cases htakes

theorem Leads.mono {P Q : Byte → Prop} (hPQ : ∀ b, P b → Q b) (h : Leads P v) : Leads Q v :=
  ⟨h.1.imp fun _ e hb htakes => hPQ e (hb htakes), h.2⟩

/-- No WikiWord follows a blank, at whatever the text is put before. -/
def LeadsNoWord (v : Bytes) : Prop := Leads (isUpper · = false) v

instance (v : Bytes) : Decidable (LeadsNoWord v) :=
  inferInstanceAs (Decidable (Leads (isUpper · = false) v))

/-- The padded text has no WikiWord after a blank. -/
theorem Apart.misses (h : Apart v) : plainPattern.Misses (str " " ++ v ++ str " ") := by
  have hblank : Apart (str " ") := .of_bytes (by decide)
  exact plainPattern_misses ((hblank.append h).append hblank).1

end

theorem plain_pattern : plainPattern =
    ⟨false, .startCapture :: wordItem :: .endCapture :: .startCapture :: wordItems⟩ := by
  decide

theorem anchored_pattern : anchoredPattern =
    ⟨plainPattern.anchor, plainPattern.items ++
      .single (.lit (ch '#')) .one :: .startCapture :: wordItems⟩ := by
  decide

/-- Without a WikiWord after a blank there is no automatic link. -/
theorem autoLinks_plain (h : st.insideNoAutoLink = true ∨ plainPattern.Misses line) :
    autoLinks env line st = (line, st) := by
  rw [autoLinks_eq]
  by_cases hst : st.insideNoAutoLink = true
  · rw [if_pos hst]
  · have hplain := h.resolve_left hst
    have hanchored : anchoredPattern.Misses line := by
      rw [anchored_pattern]
      exact hplain.extend _
    rw [if_neg hst]
    simp only [gsubState_misses hanchored, gsubState_misses hplain]

/-! ### What `emitList` changes -/

theorem openLevels_frame (theType theElement theOlType : Bytes) (n : Nat) (firstTime : Bool)
    (st : FormatterState) (result : StringBuffer) : ∃ types elements,
    (openLevels theType theElement theOlType n firstTime st result).1 =
      { st with listTypes := types, listElements := elements } := by
  induction n generalizing st firstTime result with
  | zero => exact ⟨_, _, rfl⟩
  | succ n ih =>
    rw [openLevels]
    obtain ⟨types, elements, h⟩ := ih false { st with
      listTypes := theType :: st.listTypes
      listElements := theElement :: st.listElements } _
    exact ⟨types, elements, h⟩

theorem closeLevels_frame (n : Nat) (st : FormatterState) (result : StringBuffer) :
    ∃ types elements, (closeLevels n st result).1 =
      { st with listTypes := types, listElements := elements } := by
  induction n generalizing st result with
  | zero => exact ⟨_, _, rfl⟩
  | succ n ih =>
    rw [closeLevels]
    obtain ⟨types, elements, h⟩ := ih { st with
      listTypes := st.listTypes.tail
      listElements := st.listElements.tail } _
    exact ⟨types, elements, h⟩

/-- Only the lists change. -/
theorem emitList_frame (theType theElement : Bytes) (theDepth : Nat) (theOlType : Option Bytes)
    (st : FormatterState) : ∃ types elements,
    (emitList theType theElement theDepth theOlType st).2 =
      { st with isList := true, listTypes := types, listElements := elements } := by
  rw [emitList]
  dsimp only
  generalize hlevels : (if st.listTypes.length < theDepth then
      openLevels theType theElement (olType theOlType) (theDepth - st.listTypes.length) true
        { st with isList := true } {}
    else if st.listTypes.length > theDepth then
      ((closeLevels (st.listTypes.length - theDepth) { st with isList := true } {}).1,
        closeElement (closeLevels (st.listTypes.length - theDepth) { st with isList := true } {}).1
          (closeLevels (st.listTypes.length - theDepth) { st with isList := true } {}).2)
    else ({ st with isList := true }, closeElement { st with isList := true } {})) = levels
  have hframe : ∃ types elements, levels.1 =
      { st with isList := true, listTypes := types, listElements := elements } := by
    rw [← hlevels]
    split_ifs
    · exact openLevels_frame ..
    · exact closeLevels_frame ..
    · exact ⟨_, _, rfl⟩
  obtain ⟨st', result⟩ := levels
  obtain ⟨types, elements, rfl⟩ := hframe
  dsimp only
  cases types with
  | nil => exact ⟨_, _, rfl⟩
  | cons lastType rest =>
    dsimp only
    split_ifs
    · exact ⟨_, _, rfl⟩
    · exact ⟨_, _, rfl⟩

/-! ### Blocks -/

/-- A line that is no heading, rule, table row, paragraph, list item or anchor. -/
structure NoBlock (line : Bytes) : Prop where
  nonempty : line ≠ []
  head : ∀ b t, line = b :: t → isSpace b = false ∧ b ≠ ch '-' ∧ b ≠ ch '#'
  plus : ch '+' ∉ line
  bar : bar ∉ line

namespace NoBlock

theorem horizontalRule_eq (h : NoBlock line) : horizontalRule line = line := by
  refine replaceAll_misses (Pattern.Misses.of_head rfl (c := .cls (ch '-')) (by decide) ?_) _
  intro b t hb
  exact Bool.eq_false_iff.mpr fun hm => (h.head b t hb).2.1
    ((matchClass_literal (by decide) b).mp hm)

theorem anchors_eq (h : NoBlock line) : anchors line = line := by
  refine replaceAll_misses (Pattern.Misses.of_head rfl (c := .lit (ch '#')) (by decide) ?_) _
  intro b t hb
  exact beq_false_of_ne (h.head b t hb).2.2.symm

theorem paragraphs_eq (h : NoBlock line) :
    paragraphs line st = (line, { st with isList := false }) := by
  obtain ⟨b, t, rfl⟩ := List.exists_cons_of_ne_nil h.nonempty
  have hb : isSpace b = false := (h.head b t rfl).1
  have hmiss : (pat "^%s*$").Misses (b :: t) := by
    intro v _ hv
    obtain rfl := hv rfl
    refine matchHere_eq_none ?_
    cases hd : doMatch (pat "^%s*$").items [] (b :: t) with
    | none => rfl
    | some r =>
      have hblank := doMatch_blanks_eos_sound hd b (by simp)
      rw [hb] at hblank
      cases hblank
  have hfound : found (pat "^%S+") (b :: t) = true := by
    rw [found_iff_not_misses]
    intro hmisses
    have hnone := hmisses (b :: t) List.suffix_rfl fun _ => rfl
    obtain ⟨u, v, hsplit, hu, hv⟩ := exists_run (fun c => !isSpace c) (b :: t)
    have hd : doMatch (pat "^%S+").items [] (u ++ v) = some (v, []) := by
      refine doMatch_plus ?_ hu hv rfl
      rintro rfl
      have hspace := hv b t (hsplit.symm.trans rfl)
      simp [hb] at hspace
    rw [hsplit, matchHere_of_doMatch hd] at hnone
    cases hnone
  simp only [paragraphs, gsubStr, replaceAll_misses hmiss, hfound, or_true, ↓reduceIte]

/-- The list patterns begin with a blank. -/
theorem listItem_eq (h : NoBlock line) {p : Pattern} (hanchor : p.anchor = true)
    (hhead : headSingle p.items = some (.set false [.lit (ch ' ')])) (theType : Bytes) :
    listItem p theType line st = (line, st) := by
  refine gsubState_misses (Pattern.Misses.of_head hanchor hhead fun b t hb => ?_) _ _
  have hne : ch ' ' ≠ b := fun heq => by
    have hspace := (h.head b t hb).1
    rw [← heq] at hspace
    exact absurd hspace (by decide)
  simp [singleMatch, matchBracketClass, SetItem.test, hne]

/-- Such a line ends the lists. -/
theorem lists_eq (h : NoBlock line) (hst : st.isList = false) :
    lists line st =
      (line, { (emitList [] [] 0 none st).2.addString (emitList [] [] 0 none st).1 with
        isList := false }) := by
  have hbullet : listItem (pat "^([ ]+)%* ") (str "UL") line st = (line, st) :=
    h.listItem_eq rfl (by decide) _
  have hnumber : listItem (pat "^([ ]+)(%d+%.?) ?") (str "OL") line st = (line, st) :=
    h.listItem_eq rfl (by decide) _
  have hmarker : listItem (pat "^([ ]+)([1AaIi]%.) ?") (str "OL") line st = (line, st) :=
    h.listItem_eq rfl (by decide) _
  simp only [lists, hbullet, hnumber, hmarker, hst, Bool.false_eq_true, ↓reduceIte]

theorem notTableLine (h : NoBlock line) : ¬ IsTableLine line := by
  rintro ⟨before, mid, after, _, _, rfl⟩
  exact h.bar (by simp)

/-- The line is padded and styled; the formatter leaves tables and lists. -/
theorem styled {l : Bytes} (h : NoBlock l) {cls : FormatterClass} (st : FormatterState)
    (hl : entities (embeddedUrls cls (embeddedHtml (blockQuote line))) = l) :
    (styledLine cls line st).1 = emphasis (str " " ++ l ++ str " ") ∧
      ∃ types elements result, (styledLine cls line st).2 =
        { st with
          insideTable := false
          isList := false
          listTypes := types
          listElements := elements
          result := result } := by
  have hbefore : beforeTables cls line = l := by
    rw [beforeTables, hl, headings_plain h.plus, h.horizontalRule_eq]
  have hrow : ∃ result, (processTableLine l st) =
      (l, { st with insideTable := false, result := result }) := by
    rw [processTableLine_plain h.notTableLine]
    by_cases hst : st.insideTable = true
    · rw [if_pos hst]
      exact ⟨_, rfl⟩
    · exact ⟨st.result, by rw [if_neg hst, ← Bool.eq_false_iff.mpr hst]⟩
  obtain ⟨result, hrow⟩ := hrow
  obtain ⟨types, elements, hlists⟩ := emitList_frame [] [] 0 none
    { st with insideTable := false, result := result, isList := false }
  simp only [styledLine, hbefore, hrow, h.paragraphs_eq, h.lists_eq, h.anchors_eq, hlists,
    FormatterState.addString]
  exact ⟨trivial, _, _, _, rfl⟩

end NoBlock

/-- A text that the steps after its entities leave as it is. -/
structure Settled (noAutoLink : Bool) (l : Bytes) : Prop extends NoBlock l where
  bracket : ch '[' ∉ l
  percent : ch '%' ∉ l
  emphasis : ∀ rule ∈ emphasisRules, rule.1.Misses (str " " ++ l ++ str " ")
  words : noAutoLink = true ∨ plainPattern.Misses (str " " ++ l ++ str " ")

/-- A line without links is styled, and its variables are replaced. -/
theorem formatWikiLine_linkless {l s : Bytes} (h : NoBlock l)
    (hl : entities (embeddedUrls env.cls (embeddedHtml (blockQuote line))) = l)
    (hs : emphasis (str " " ++ l ++ str " ") = s) (hbracket : ch '[' ∉ s)
    (hwords : st.insideNoAutoLink = true ∨ plainPattern.Misses s) :
    (formatWikiLine env line st).1 = percentVariables s := by
  obtain ⟨hline, types, elements, result, hst⟩ := h.styled st hl
  rw [formatWikiLine_styled]
  generalize styledLine env.cls line st = styled at hline hst
  obtain ⟨padded, st'⟩ := styled
  obtain rfl : padded = s := hline.trans hs
  have hwords' : st'.insideNoAutoLink = true ∨ plainPattern.Misses padded := by
    rw [show st' = _ from hst]
    exact hwords
  simp only [hyperLinks_plain hbracket, autoLinks_plain hwords']

/-- The text of a line is only padded. -/
theorem formatWikiLine_settled {l : Bytes} (h : Settled st.insideNoAutoLink l)
    (hl : entities (embeddedUrls env.cls (embeddedHtml (blockQuote line))) = l) :
    (formatWikiLine env line st).1 = str " " ++ l ++ str " " := by
  have hpad : ∀ x, x ≠ ch ' ' → x ∉ l → x ∉ str " " ++ l ++ str " " := by
    intro x hx hxl
    simp [hxl, hx, show str " " = [ch ' '] by decide]
  rw [formatWikiLine_linkless h.toNoBlock hl (emphasis_misses h.emphasis)
    (hpad (ch '[') (by decide) h.bracket) h.words]
  exact percentVariables_plain (hpad (ch '%') (by decide) h.percent)

end MoonWiki
