import MoonWiki.LineTags

/-! The tags of a rendered page whose text holds none of its own. -/
namespace MoonWiki
open Lua

variable {cls : FormatterClass} {env : FormatterEnv} {st : FormatterState} {line : Bytes}

/-! ### Lists -/

/-- What the formatter has put out holds its own tags only, and no text is copied as it is. -/
structure FormatterState.Tidy (cls : FormatterClass) (st : FormatterState) : Prop where
  pre : st.insidePre = false
  held : st.Stacks
  result : WikiTags cls st.result.contents

theorem FormatterState.Tidy.addString (h : st.Tidy cls) {text : Option Bytes}
    (htext : WikiTags cls (text.getD [])) : (st.addString text).Tidy cls := by
  refine ⟨h.pre, ⟨h.held.types, h.held.elements⟩, ?_⟩
  rw [FormatterState.addString_contents]
  exact h.result.append htext

/-- The tags of a list and of an item. -/
theorem listNames_tags : ∀ name ∈ listNames,
    Tagged (ch '<') lineTags (str "<" ++ name ++ str ">\n") ∧
      Tagged (ch '<') lineTags (str "</" ++ name ++ str ">\n") := by
  decide +kernel

theorem openName_wikiTags {name : Bytes} (h : name ∈ listNames) :
    WikiTags cls (str "<" ++ name ++ str ">\n") :=
  (listNames_tags name h).1.mono (lineTags_subset cls)

theorem closeName_wikiTags {name : Bytes} (h : name ∈ listNames) :
    WikiTags cls (str "</" ++ name ++ str ">\n") :=
  (listNames_tags name h).2.mono (lineTags_subset cls)

theorem numbered_tags : Tagged (ch '<') lineTags (listStart (str "OL") (str "$1")) := by
  decide +kernel

/-- Only a numbered list has a marker. -/
theorem listStart_wikiTags {theType : Bytes} {marker : Option Bytes}
    (htype : theType ∈ listTypeNames) (hmarker : theType = str "OL" ∨ marker = none) :
    WikiTags cls (listStart theType (olType marker)) := by
  have hplain : WikiTags cls (listStart theType []) := by
    rw [listStart, if_neg (by simp)]
    exact openName_wikiTags (List.mem_append_left [str "LI"] htype)
  rcases hmarker with rfl | rfl
  · rcases olType_cases marker with hol | hol
    · rw [hol]
      exact hplain
    · rw [hol]
      exact numbered_tags.mono (lineTags_subset cls)
  · exact hplain

variable {theType theOlType : Bytes} {result : StringBuffer}

theorem openLevels_wikiTags (hstart : WikiTags cls (listStart theType theOlType))
    (hresult : WikiTags cls result.contents) (n : Nat) (firstTime : Bool) :
    WikiTags cls (openLevels theType (str "LI") theOlType n firstTime st result).2.contents := by
  induction n generalizing firstTime st result with
  | zero => exact hresult
  | succ n ih =>
    rw [openLevels_succ]
    apply ih
    rw [StringBuffer.contents_addString]
    apply Tagged.append _ hstart
    split
    · exact hresult
    · rw [StringBuffer.contents_addString]
      exact hresult.append (openName_wikiTags (by decide))

theorem closeLevels_wikiTags (h : st.Stacks) {n : Nat} (hn : n ≤ st.listTypes.length)
    (hresult : WikiTags cls result.contents) :
    WikiTags cls (closeLevels n st result).2.contents := by
  induction n generalizing st result with
  | zero => exact hresult
  | succ n ih =>
    obtain ⟨t, ts, hts⟩ := List.exists_cons_of_length_pos (by omega : 0 < st.listTypes.length)
    have helements := h.elements
    rw [hts, List.map_cons] at helements
    have hpop : { st with
        listTypes := st.listTypes.tail
        listElements := st.listElements.tail }.Stacks :=
      ⟨fun t' ht' => h.types t' (List.mem_of_mem_tail ht'), by simp [h.elements]⟩
    have hlength : n ≤ st.listTypes.tail.length := by
      rw [List.length_tail]
      omega
    have ht : t ∈ listTypeNames := h.types t (by simp [hts])
    rw [closeLevels]
    apply ih hpop hlength
    rw [StringBuffer.contents_addString, StringBuffer.contents_addString, helements, hts]
    have hitem : WikiTags cls (str "</" ++ str "LI" ++ str ">\n") :=
      closeName_wikiTags (by decide)
    exact (hresult.append hitem).append (closeName_wikiTags (List.mem_append_left [str "LI"] ht))

theorem closeElement_wikiTags (h : st.Stacks) (hresult : WikiTags cls result.contents) :
    WikiTags cls (closeElement st result).contents := by
  have helements := h.elements
  rw [closeElement]
  cases hts : st.listTypes with
  | nil =>
    rw [hts, List.map_nil] at helements
    rw [helements]
    exact hresult
  | cons t ts =>
    rw [hts, List.map_cons] at helements
    rw [helements]
    dsimp only
    rw [StringBuffer.contents_addString]
    exact hresult.append (closeName_wikiTags (by decide))

theorem emitList_wikiTags {theElement : Bytes} {theDepth : Nat} {marker : Option Bytes}
    (hkind : 0 < theDepth → theType ∈ listTypeNames ∧ theElement = str "LI")
    (hmarker : theType = str "OL" ∨ marker = none) (h : st.Stacks) :
    WikiTags cls ((emitList theType theElement theDepth marker st).1.getD []) := by
  have hempty : WikiTags cls ({} : StringBuffer).contents := .of_not_mem List.not_mem_nil
  have hlist : { st with isList := true }.Stacks := ⟨h.types, h.elements⟩
  rw [emitList]
  dsimp only
  generalize hlevels : (if st.listTypes.length < theDepth then
      openLevels theType theElement (olType marker) (theDepth - st.listTypes.length) true
        { st with isList := true } {}
    else if st.listTypes.length > theDepth then
      ((closeLevels (st.listTypes.length - theDepth) { st with isList := true } {}).1,
        closeElement (closeLevels (st.listTypes.length - theDepth) { st with isList := true } {}).1
          (closeLevels (st.listTypes.length - theDepth) { st with isList := true } {}).2)
    else ({ st with isList := true }, closeElement { st with isList := true } {})) = levels
  have hbefore : levels.1.Stacks ∧ levels.1.listTypes.length = theDepth ∧
      WikiTags cls levels.2.contents := by
    rw [← hlevels]
    split_ifs with hopen hclose
    · obtain ⟨htype, rfl⟩ := hkind (by omega)
      obtain ⟨_, -, hstacks, htypes, -⟩ := openLevels_first_leads htype
        (olType_cases marker) (by omega : 0 < theDepth - st.listTypes.length) hlist {}
      refine ⟨hstacks, ?_, openLevels_wikiTags (listStart_wikiTags htype hmarker) hempty _ _⟩
      rw [htypes, List.length_append, List.length_replicate]
      dsimp only
      omega
    · have hn : st.listTypes.length - theDepth ≤ { st with isList := true }.listTypes.length :=
        Nat.sub_le _ _
      obtain ⟨_, -, hstacks, htypes, -⟩ := closeLevels_leads hlist hn {}
      refine ⟨hstacks, ?_, closeElement_wikiTags hstacks (closeLevels_wikiTags hlist hn hempty)⟩
      rw [htypes, List.length_drop]
      dsimp only
      omega
    · exact ⟨hlist, by dsimp only; omega, closeElement_wikiTags hlist hempty⟩
  obtain ⟨st', result⟩ := levels
  obtain ⟨hstacks, hlength, htags⟩ := hbefore
  dsimp only at hstacks hlength htags ⊢
  cases htypes : st'.listTypes with
  | nil =>
    dsimp only
    rw [(StringBuffer.toString_contents result).1]
    exact htags
  | cons lastType rest =>
    rw [htypes, List.length_cons] at hlength
    obtain ⟨htype, -⟩ := hkind (by omega)
    dsimp only
    split_ifs
    · rw [(StringBuffer.toString_contents _).1, StringBuffer.contents_addString]
      have hlast : lastType ∈ listTypeNames := hstacks.types lastType (by simp [htypes])
      have hclose : WikiTags cls (str "</" ++ lastType ++ str ">\n") :=
        closeName_wikiTags (List.mem_append_left [str "LI"] hlast)
      have hopen : WikiTags cls (str "<" ++ theType ++ str ">\n") :=
        openName_wikiTags (List.mem_append_left [str "LI"] htype)
      have hbetween : str ">\n<" = str ">\n" ++ str "<" := by decide
      have hchange := htags.append (hclose.append hopen)
      simpa [hbetween] using hchange
    · rw [(StringBuffer.toString_contents result).1]
      exact htags

theorem FormatterState.Tidy.emitList {theElement : Bytes} {theDepth : Nat} {marker : Option Bytes}
    (hkind : 0 < theDepth → theType ∈ listTypeNames ∧ theElement = str "LI")
    (hmarker : theType = str "OL" ∨ marker = none) (h : st.Tidy cls) :
    ((emitList theType theElement theDepth marker st).2.addString
      (emitList theType theElement theDepth marker st).1).Tidy cls := by
  obtain ⟨types, elements, hframe⟩ := emitList_frame theType theElement theDepth marker st
  have hstacks := (emitList_leads marker hkind h.held).1
  apply FormatterState.Tidy.addString _ (emitList_wikiTags hkind hmarker h.held)
  rw [hframe] at hstacks ⊢
  exact ⟨h.pre, hstacks, h.result⟩

theorem FormatterState.Tidy.closeLists (h : st.Tidy cls) :
    ((MoonWiki.emitList [] [] 0 none st).2.addString
      (MoonWiki.emitList [] [] 0 none st).1).Tidy cls :=
  FormatterState.Tidy.emitList (fun hpos => absurd hpos (by simp)) (.inr rfl) h

/-- The items of a line, whose pattern for a list without numbers captures the indent only. -/
theorem FormatterState.Tidy.listItem {p : Pattern} (htype : theType ∈ listTypeNames)
    (hcap : .startCapture ∈ p.items)
    (hmarker : theType = str "OL" ∨ p.items.count .startCapture = 1) (h : st.Tidy cls)
    (line : Bytes) : (listItem p theType line st).2.Tidy cls := by
  have hnone : ∀ cs ∈ gfind p line, theType = str "OL" ∨ cs[1]? = none := by
    intro cs hcs
    obtain ⟨v, m, -, hm, rfl⟩ := gfind_match hcs
    refine hmarker.imp_right ?_
    intro hone
    have hlength := captures_length hcap hm
    apply List.getElem?_eq_none
    omega
  rw [MoonWiki.listItem, gsubState_snd]
  generalize gfind p line = found at hnone
  induction found generalizing st with
  | nil => exact h
  | cons cs found ih =>
    rw [List.foldl_cons]
    apply ih _ fun cs' hcs' => hnone cs' (List.mem_cons_of_mem _ hcs')
    exact FormatterState.Tidy.emitList (fun _ => ⟨htype, rfl⟩)
      (hnone cs (List.mem_cons_self ..)) h

theorem FormatterState.Tidy.lists (h : st.Tidy cls) (line : Bytes) :
    (lists line st).2.Tidy cls := by
  have hbullet : (MoonWiki.listItem (pat "^([ ]+)%* ") (str "UL") line st).2.Tidy cls :=
    FormatterState.Tidy.listItem (by decide) (by decide) (.inr (by decide)) h line
  rw [MoonWiki.lists]
  generalize MoonWiki.listItem (pat "^([ ]+)%* ") (str "UL") line st = bullet at hbullet ⊢
  obtain ⟨line₁, st₁⟩ := bullet
  dsimp only at hbullet ⊢
  have hnumber : (MoonWiki.listItem (pat "^([ ]+)(%d+%.?) ?") (str "OL") line₁ st₁).2.Tidy cls :=
    FormatterState.Tidy.listItem (by decide) (by decide) (.inl rfl) hbullet line₁
  generalize MoonWiki.listItem (pat "^([ ]+)(%d+%.?) ?") (str "OL") line₁ st₁ = number
    at hnumber ⊢
  obtain ⟨line₂, st₂⟩ := number
  dsimp only at hnumber ⊢
  have hspecial :
      (MoonWiki.listItem (pat "^([ ]+)([1AaIi]%.) ?") (str "OL") line₂ st₂).2.Tidy cls :=
    FormatterState.Tidy.listItem (by decide) (by decide) (.inl rfl) hnumber line₂
  generalize MoonWiki.listItem (pat "^([ ]+)([1AaIi]%.) ?") (str "OL") line₂ st₂ = special
    at hspecial ⊢
  obtain ⟨line₃, st₃⟩ := special
  dsimp only at hspecial ⊢
  split_ifs
  · exact hspecial
  · have hclosed := hspecial.closeLists
    exact ⟨hclosed.pre, ⟨hclosed.held.types, hclosed.held.elements⟩, hclosed.result⟩

theorem itemPatterns_anchor : ∀ p ∈ itemPatterns, p.anchor = true := by decide

theorem item_tag : Tagged (ch '<') lineTags (str "<LI> ") := by decide

theorem break_tag : Tagged (ch '<') lineTags (htk "BR" [] []) := by decide

theorem lists_wikiTags (h : WikiTags cls line) (st : FormatterState) :
    WikiTags cls (lists line st).1 := by
  apply lists_preserves _ h
  intro p hp line hline
  apply hline.replaceAll (.inl (itemPatterns_anchor p hp))
  intro v m _ _
  exact item_tag.mono (lineTags_subset cls)

/-! ### Tables -/

theorem tableCell_wikiTags {cell span : Bytes} (h : WikiTags cls cell) :
    WikiTags cls (tableCell cell span) := by
  have hspan : WikiTags cls (decimal span.length) := by
    apply Tagged.of_not_mem
    intro hmem
    exact absurd (isDigit_decimal _ _ hmem) (by decide)
  have hcell : ∀ (field : String) (t : Bytes), (field, []) ∈ lineElements →
      (field, ["colspan"]) ∈ lineElements → WikiTags cls t →
      WikiTags cls (htk field (if span.length = 1 then [] else [("colspan", decimal span.length)])
        [t]) := by
    intro field t hplain hspans ht
    have hsub : lineElements ⊆ pageElements cls := by
      cases cls with
      | printable => exact List.Subset.refl _
      | exporting => exact List.subset_append_left _ _
      | wiki => exact List.subset_append_left _ _
    have htext : ∀ u ∈ [t], WikiTags cls u := by
      intro u hu
      obtain rfl := List.mem_singleton.mp hu
      exact ht
    split
    · exact htk_wikiTags (hsub hplain) (fun a ha => absurd ha List.not_mem_nil) htext
    · apply htk_wikiTags (hsub hspans) _ htext
      intro a ha
      obtain rfl := List.mem_singleton.mp ha
      exact hspan
  cases hcapture : capture? (pat "^%s*%*(.*)%*%s*$") cell with
  | none =>
    simp only [tableCell, hcapture]
    exact hcell "TD" cell (by decide) (by decide) h
  | some text =>
    have htext := capture_tagged (cutsWhole_pageTags (by simp [cuts]))
      (searches_cut _ (by simp [cuts])).2 h hcapture
    simp only [tableCell, hcapture]
    exact hcell "TH" text (by decide) (by decide) htext

theorem table_tags : Tagged (ch '<') lineTags (str "<TABLE border=\"1\">\n") ∧
    Tagged (ch '<') lineTags (str "</TABLE>\n") ∧
    Tagged (ch '<') lineTags (str "</table>\n") := by
  decide +kernel

theorem row_wikiTags (h : WikiTags cls line) : WikiTags cls
    (htk "TR" [] [(gfind (pat "([^|]+)(|+)") line).flatMap
      fun c => tableCell (c.getD 0 []) (c.getD 1 [])]) := by
  have hcells := gfind_tagged (cutsWhole_pageTags (by simp [cuts]))
    (searches_cut _ (by simp [cuts])).2 h (p := pat "([^|]+)(|+)")
  apply htk_wikiTags
  · cases cls <;> simp [pageElements, lineElements]
  · intro a ha
    cases ha
  · intro t ht
    obtain rfl := List.mem_singleton.mp ht
    generalize gfind (pat "([^|]+)(|+)") line = cells at hcells
    induction cells with
    | nil => exact .of_not_mem List.not_mem_nil
    | cons part cells ih =>
      have hcell : WikiTags cls (part.getD 0 []) := by
        rw [List.getD_eq_getElem?_getD]
        cases hget : part[0]? with
        | none => exact .of_not_mem List.not_mem_nil
        | some t => exact hcells part (List.mem_cons_self ..) t (List.mem_of_getElem? hget)
      exact (tableCell_wikiTags hcell).append
        (ih fun cs hcs => hcells cs (List.mem_cons_of_mem _ hcs))

/-- A row, or a line behind the table that it ends. -/
theorem processTableLine_tidy (h : st.Tidy cls) (hline : WikiTags cls line) :
    WikiTags cls (processTableLine line st).1 ∧ (processTableLine line st).2.Tidy cls := by
  have hsame : ∀ inside, { st with insideTable := inside }.Tidy cls := fun inside =>
    ⟨h.pre, ⟨h.held.types, h.held.elements⟩, h.result⟩
  cases hcapture : capture? (pat "^%s*(|.*|)%s*$") line with
  | none =>
    simp only [processTableLine, hcapture]
    split
    · exact ⟨hline, (hsame false).addString (table_tags.2.1.mono (lineTags_subset cls))⟩
    · exact ⟨hline, h⟩
  | some row =>
    have hrow := capture_tagged (cutsWhole_pageTags (by simp [cuts]))
      (searches_cut _ (by simp [cuts])).2 hline hcapture
    simp only [processTableLine, hcapture]
    refine ⟨Tagged.append ?_ (row_wikiTags hrow), hsame true⟩
    split
    · exact .of_not_mem List.not_mem_nil
    · exact table_tags.1.mono (lineTags_subset cls)

/-! ### Lines -/

theorem paragraphs_tidy (h : st.Tidy cls) (hline : WikiTags cls line) :
    WikiTags cls (paragraphs line st).1 ∧ (paragraphs line st).2.Tidy cls := by
  refine ⟨hline.pass (by simp [textPasses]), ?_⟩
  rw [paragraphs]
  dsimp only
  split_ifs
  · exact ⟨h.pre, ⟨h.held.types, h.held.elements⟩, h.result⟩
  · exact h

theorem emphasis_wikiTags (h : WikiTags cls line) : WikiTags cls (emphasis line) := by
  apply emphasis_preserves _ h
  intro rule hrule line hline
  exact hline.pass (List.mem_append_right _ (List.mem_map_of_mem hrule))

theorem percentVariables_wikiTags (h : WikiTags cls line) :
    WikiTags cls (percentVariables line) := by
  apply h.search (by simp [searches])
  intro v m _ _
  unfold processDefinedVariables
  dsimp only
  split
  · exact break_tag.mono (lineTags_subset cls)
  · exact .of_not_mem List.not_mem_nil

theorem formatWikiLine_tidy (h : st.Tidy env.cls) (hline : MarkLine line) :
    WikiTags env.cls (formatWikiLine env line st).1 ∧
      (formatWikiLine env line st).2.Tidy env.cls := by
  obtain ⟨hrow, htable⟩ := processTableLine_tidy h hline.beforeTables
  rw [formatWikiLine_eq]
  dsimp only
  generalize processTableLine (beforeTables env.cls line) st = row at hrow htable ⊢
  obtain ⟨hparagraph, hblank⟩ := paragraphs_tidy htable hrow
  generalize paragraphs row.1 row.2 = paragraph at hparagraph hblank ⊢
  have hitem := lists_wikiTags hparagraph paragraph.2
  have hlists := hblank.lists paragraph.1
  generalize lists paragraph.1 paragraph.2 = item at hitem hlists ⊢
  have hanchor : WikiTags env.cls (anchors item.1) := hitem.pass (by simp [textPasses])
  have hblank : WikiTags env.cls (str " ") := .of_not_mem (by decide)
  have hstyled := emphasis_wikiTags ((hblank.append hanchor).append hblank)
  have hlinked := hyperLinks_wikiTags hstyled item.2
  have hauto := autoLinks_wikiTags hlinked
    (hyperLinks env (emphasis (str " " ++ anchors item.1 ++ str " ")) item.2).2
  refine ⟨percentVariables_wikiTags hauto, ?_⟩
  rw [autoLinks_state, hyperLinks_state]
  exact ⟨hlists.pre, ⟨hlists.held.types, hlists.held.elements⟩, hlists.result⟩

/-! ### Pages -/

theorem infix_of_plainFound {t s : Bytes} (h : plainFound t s = true) : t <:+: s := by
  induction s with
  | nil =>
    rw [plainFound, List.isEmpty_iff] at h
    exact h ▸ List.infix_refl _
  | cons b s ih =>
    rw [plainFound, Bool.or_eq_true] at h
    rcases h with h | h
    · exact (List.isPrefixOf_iff_prefix.mp h).isInfix
    · exact (ih h).trans (List.suffix_cons b s).isInfix

theorem toLower_lt (b : Byte) : toLower b = ch '<' → b = ch '<' := by
  revert b
  refine forall_byte ?_
  decide +kernel

/-- No line without tags opens a PRE section. -/
theorem MarkLine.lineModes (h : MarkLine line) (hpre : st.insidePre = false) :
    (lineModes line st).insidePre = false := by
  have hlower : Tagged (ch '<') [str "nop>"] (lower line) := by
    obtain ⟨w, hw, hline⟩ := h
    have hplain : Tagged (ch '<') [str "nop>"] (lower w) := by
      apply Tagged.of_not_mem
      intro hmem
      obtain ⟨b, hb, hlt⟩ := List.mem_map.mp hmem
      rw [toLower_lt b hlt] at hb
      exact hw (ch '<') (by decide) hb
    rcases hline with rfl | rfl
    · exact hplain
    · rw [lower, List.map_append]
      exact hplain.append (by decide)
  have hnone : plainFound (str "<pre>") (lower line) = false := by
    by_contra hfound
    obtain ⟨a, b, hab⟩ := infix_of_plainFound (Bool.not_eq_false _ ▸ hfound)
    obtain ⟨w, hw, hwb⟩ := hlower (str "pre>" ++ b) ⟨a, by rw [← hab]; simp; rfl⟩
    obtain rfl := List.mem_singleton.mp hw
    exact absurd (List.cons_prefix_cons.mp hwb).1 (by decide)
  rw [MoonWiki.lineModes]
  simp only [hnone, Bool.false_eq_true, ↓reduceIte]
  split_ifs <;> first | exact hpre | rfl

theorem lineModes_frame (line : Bytes) (st : FormatterState) : ∃ pre noAutoLink,
    lineModes line st = { st with insidePre := pre, insideNoAutoLink := noAutoLink } := by
  rw [lineModes]
  split_ifs <;> exact ⟨_, _, rfl⟩

theorem pageLine_tidy (h : st.Tidy env.cls) (hline : MarkLine line) :
    (pageLine env line st).Tidy env.cls := by
  have hpre := hline.lineModes h.pre
  obtain ⟨pre, noAutoLink, hframe⟩ := lineModes_frame line st
  have hmodes : (lineModes line st).Tidy env.cls := by
    rw [hframe] at hpre ⊢
    exact ⟨hpre, ⟨h.held.types, h.held.elements⟩, h.result⟩
  rw [pageLine]
  simp only [hpre, Bool.false_eq_true, ↓reduceIte]
  obtain ⟨hrendered, htidy⟩ := formatWikiLine_tidy hmodes hline
  exact htidy.addString hrendered

theorem pageEnd_tidy (h : st.Tidy cls) : (pageEnd st).Tidy cls := by
  have htable :
      (if st.insideTable then st.addString (some (str "</table>\n")) else st).Tidy cls := by
    split
    · exact h.addString (table_tags.2.2.mono (lineTags_subset cls))
    · exact h
  rw [pageEnd]
  generalize (if st.insideTable = true then st.addString (some (str "</table>\n")) else st) = st'
    at htable ⊢
  have hclosed := htable.closeLists
  dsimp only
  rw [if_neg (Bool.eq_false_iff.mp hclosed.pre)]
  exact hclosed

/-- Text without tags has no verbatim sections, and only the mark is put behind it. -/
theorem pageText_tagless {content : Bytes} (h : ch '<' ∉ content) :
    ∃ e rest, (∀ b ∈ e, b ∈ content ∨ b = 10) ∧ (rest = [] ∨ rest = str "\n<nop>\n") ∧
      pageText content = (e ++ (str "<nop>" ++ 10 :: rest), []) := by
  have hbytes : ∀ b ∈ gsubStr (pat "\r") [] content, b ∈ content := by
    intro b hb
    by_contra hnone
    exact not_mem_gsubStr (List.not_mem_nil : b ∉ plainBytes []) hnone hb
  rw [pageText]
  dsimp only
  generalize gsubStr (pat "\r") [] content = c at hbytes ⊢
  obtain ⟨u, htext, hu⟩ := endOfPage_text c
  have hplain : ∀ v : Bytes, (∀ b ∈ v, b ∈ c) → Tagged (ch '<') [str "nop>"] v := by
    intro v hv
    apply Tagged.of_not_mem
    intro hlt
    exact h (hbytes _ (hv _ hlt))
  have htagged : Tagged (ch '<') [str "nop>"] (u ++ str "\n<nop>\n") := by
    apply Tagged.append _ (by decide)
    rcases hu with rfl | ⟨d, rfl, rfl⟩
    · exact hplain u fun b hb => hb
    · exact (hplain d fun b hb => List.mem_append_left _ hb).append (by decide)
  have habsent : ¬ str "<verbatim>" <:+: u ++ str "\n<nop>\n" := by
    rintro ⟨a, b, hab⟩
    obtain ⟨w, hw, hwb⟩ := htagged (str "verbatim>" ++ b) ⟨a, by rw [← hab]; simp; rfl⟩
    obtain rfl := List.mem_singleton.mp hw
    exact absurd (List.cons_prefix_cons.mp hwb).1 (by decide)
  have hverbatim : takeOutVerbatim (u ++ str "\n<nop>\n") = (u ++ str "\n<nop>\n", []) := by
    rw [takeOutVerbatim, verbatim_pattern, List.append_assoc]
    exact gsubState_misses ((Pattern.Misses.of_absent habsent).extend _) _ _
  have hjoin : ∀ v z : Bytes, gsubStr (pat "\\\n") [] (v ++ ch '<' :: z) =
      gsubStr (pat "\\\n") [] v ++ ch '<' :: gsubStr (pat "\\\n") [] z := by
    intro v z
    rw [join_pattern, List.nil_append]
    exact gsubStr_literal_split (by decide) (by decide) (by decide) v z
  have hkeep : ∀ v : Bytes, (∀ b ∈ v, b ∈ c) →
      ∀ b ∈ gsubStr (pat "\\\n") [] (v ++ [10]), b ∈ content ∨ b = 10 := by
    intro v hv b hb
    by_contra hnone
    rw [not_or] at hnone
    refine not_mem_gsubStr (List.not_mem_nil : b ∉ plainBytes []) ?_ hb
    intro hmem
    rcases List.mem_append.mp hmem with hmem | hmem
    · exact hnone.1 (hbytes b (hv b hmem))
    · exact hnone.2 (List.mem_singleton.mp hmem)
  rw [htext, hverbatim]
  dsimp only
  rcases hu with rfl | ⟨d, rfl, rfl⟩
  · refine ⟨_, [], hkeep u fun b hb => hb, .inl rfl, ?_⟩
    have hsplit : u ++ str "\n<nop>\n" = (u ++ [10]) ++ ch '<' :: str "nop>\n" := by
      rw [List.append_assoc]
      rfl
    have hend : gsubStr (pat "\\\n") [] (str "nop>\n") = str "nop>" ++ [10] := by decide
    rw [hsplit, hjoin, hend]
    rfl
  · refine ⟨_, _, hkeep d fun b hb => List.mem_append_left _ hb, .inr rfl, ?_⟩
    have hsplit : d ++ str "\n<nop>\n" ++ str "\n<nop>\n" =
        (d ++ [10]) ++ ch '<' :: str "nop>\n\n<nop>\n" := by
      rw [List.append_assoc, List.append_assoc]
      rfl
    have hend : gsubStr (pat "\\\n") [] (str "nop>\n\n<nop>\n") =
        str "nop>" ++ 10 :: str "\n<nop>\n" := by
      decide
    rw [hsplit, hjoin, hend]
    rfl

/-- The lines of a text behind which another line ends. -/
theorem textLines_behind (e rest : Bytes) {l : Bytes} (hl : 10 ∉ l) :
    ∃ lines w, textLines (e ++ (l ++ 10 :: rest)) = lines ++ (w ++ l) :: textLines rest ∧
      ∀ v ∈ w :: lines, ∀ b ∈ v, b ∈ e ∧ b ≠ 10 := by
  induction hlength : e.length using Nat.strong_induction_on generalizing e with
  | _ n ih =>
    by_cases hmem : 10 ∈ e
    · obtain ⟨v, e', rfl, hv⟩ := List.eq_append_cons_of_mem hmem
      have hshort : e'.length < n := by
        rw [← hlength, List.length_append, List.length_cons]
        omega
      obtain ⟨lines, w, hlines, hbytes⟩ := ih e'.length hshort e' rfl
      have hcons := textLines_cons (e' ++ (l ++ 10 :: rest)) hv
      refine ⟨v :: lines, w, ?_, ?_⟩
      · rw [List.append_assoc, List.cons_append, hcons, hlines]
        rfl
      · intro z hz b hb
        have hcase : z = v ∨ z ∈ w :: lines := by
          simp only [List.mem_cons] at hz ⊢
          tauto
        rcases hcase with rfl | hz
        · refine ⟨List.mem_append_left _ hb, ?_⟩
          rintro rfl
          exact hv hb
        · obtain ⟨hb, hten⟩ := hbytes z hz b hb
          exact ⟨List.mem_append_right _ (List.mem_cons_of_mem _ hb), hten⟩
    · have hline : 10 ∉ e ++ l := by
        intro hten
        exact (List.mem_append.mp hten).elim hmem hl
      refine ⟨[], e, ?_, ?_⟩
      · rw [← List.append_assoc]
        exact textLines_cons rest hline
      · intro v hv b hb
        obtain rfl := List.mem_singleton.mp hv
        refine ⟨hb, ?_⟩
        rintro rfl
        exact hmem hb

theorem pageLines_mark {content : Bytes} (h : ∀ x ∈ str "<>~", x ∉ content) :
    ∀ l ∈ pageLines content, MarkLine l := by
  obtain ⟨e, rest, hbytes, hrest, htext⟩ := pageText_tagless (h (ch '<') (by decide))
  obtain ⟨lines, w, hlines, hplain⟩ := textLines_behind e rest (by decide : 10 ∉ str "<nop>")
  have hclean : ∀ v ∈ w :: lines, ∀ x ∈ str "<>~", x ∉ v := by
    intro v hv x hx hmem
    obtain ⟨he, hten⟩ := hplain v hv x hmem
    exact (hbytes x he).elim (h x hx) hten
  have hends : ∀ l ∈ textLines (str "\n<nop>\n"), MarkLine l := by
    have hlast : textLines (str "\n<nop>\n") = [[], str "<nop>"] := by decide
    rw [hlast]
    intro l hl
    refine ⟨[], fun x _ => List.not_mem_nil, ?_⟩
    simpa using hl
  intro l hl
  rw [pageLines, htext, hlines] at hl
  rcases List.mem_append.mp hl with hl | hl
  · exact ⟨l, hclean l (List.mem_cons_of_mem _ hl), .inl rfl⟩
  · rcases List.mem_cons.mp hl with rfl | hl
    · exact ⟨w, hclean w (List.mem_cons_self ..), .inr rfl⟩
    · rcases hrest with rfl | rfl
      · rw [textLines_nil] at hl
        cases hl
      · exact hends l hl

theorem putBackVerbatim_wikiTags {text : Bytes} (h : WikiTags cls text) :
    WikiTags cls (putBackVerbatim text []) := by
  apply h.search (by simp [searches])
  intro v m _ _
  apply htk_wikiTags
  · cases cls <;> simp [pageElements, lineElements]
  · intro a ha
    cases ha
  · intro t ht
    split at ht <;> cases ht

theorem formatWikiPage_tidy (h : st.Tidy env.cls) {content : Bytes}
    (hcontent : ∀ x ∈ str "<>~", x ∉ content) :
    WikiTags env.cls (formatWikiPage env content st).1 ∧
      (formatWikiPage env content st).2.Tidy env.cls := by
  have hlines := pageLines_mark hcontent
  have hstart : { st with isList := false, result := {} }.Tidy env.cls :=
    ⟨h.pre, ⟨h.held.types, h.held.elements⟩, .of_not_mem List.not_mem_nil⟩
  have hall : ∀ lines : List Bytes, (∀ l ∈ lines, MarkLine l) → ∀ st : FormatterState,
      st.Tidy env.cls → (lines.foldl (fun st l => pageLine env l st) st).Tidy env.cls := by
    intro lines hlines
    induction lines with
    | nil =>
      intro st hst
      exact hst
    | cons l lines ih =>
      intro st hst
      apply ih fun l' hl' => hlines l' (List.mem_cons_of_mem _ hl')
      exact pageLine_tidy hst (hlines l (List.mem_cons_self ..))
  have hlast := pageEnd_tidy (hall _ hlines _ hstart)
  rw [formatWikiPage_eq]
  dsimp only
  generalize pageEnd ((pageLines content).foldl (fun st l => pageLine env l st)
    { st with isList := false, result := {} }) = last at hlast ⊢
  obtain ⟨htext, hkept⟩ := last.result.toString_contents
  constructor
  · obtain ⟨e, rest, -, -, hnone⟩ := pageText_tagless (hcontent (ch '<') (by decide))
    rw [htext, hnone]
    exact (putBackVerbatim_wikiTags hlast.result).pass (by simp [textPasses])
  · refine ⟨hlast.pre, ⟨hlast.held.types, hlast.held.elements⟩, ?_⟩
    dsimp only
    rw [hkept]
    exact hlast.result

theorem FormatterState.Tidy.probed (h : st.Tidy cls) (topics : List Bytes) :
    { st with probed := topics }.Tidy cls :=
  ⟨h.pre, ⟨h.held.types, h.held.elements⟩, h.result⟩

theorem tidy_after (h : st.Tidy env.cls) {contents : List Bytes}
    (hcontents : ∀ c ∈ contents, ∀ x ∈ str "<>~", x ∉ c) :
    (FormatterState.after env contents st).Tidy env.cls := by
  induction contents generalizing st with
  | nil => exact h
  | cons c contents ih =>
    have hpage := (formatWikiPage_tidy h (hcontents c (List.mem_cons_self ..))).2
    rw [FormatterState.after, List.foldl_cons]
    exact ih (hpage.probed []) fun c' hc' => hcontents c' (List.mem_cons_of_mem _ hc')

/-- A pair of tokens brings in any tag. -/
example : ¬ Tagged (ch '<') (pageTags .wiki)
    (formatWikiPage (emptyEnv .wiki) (str "~$~SCRIPT~$~") {}).1 := by
  decide +kernel

end MoonWiki
