import MoonWiki.Lua.Scan
import MoonWiki.WikiFormatter

/-! What a formatter keeps from the pages it has rendered. -/
namespace MoonWiki
open Lua

/-! ### What the steps of a line leave alone -/

/-- The switches of a formatter, and lists whose types and elements go together. -/
structure FormatterState.Holds (pre noAutoLink table : Bool) (st : FormatterState) : Prop where
  pre : st.insidePre = pre
  noAutoLink : st.insideNoAutoLink = noAutoLink
  table : st.insideTable = table
  lists : st.listElements.length = st.listTypes.length

variable {env : FormatterEnv} {pre noAutoLink table : Bool} {st : FormatterState}

theorem FormatterState.Holds.addString (h : st.Holds pre noAutoLink table) (s : Option Bytes) :
    (st.addString s).Holds pre noAutoLink table := ⟨h.pre, h.noAutoLink, h.table, h.lists⟩

theorem openLevels_holds (theType theElement theOlType : Bytes) (n : Nat) (firstTime : Bool)
    (result : StringBuffer) (h : st.Holds pre noAutoLink table) :
    (openLevels theType theElement theOlType n firstTime st result).1.Holds pre noAutoLink table ∧
      (openLevels theType theElement theOlType n firstTime st result).1.listTypes.length =
        st.listTypes.length + n := by
  induction n generalizing st firstTime result with
  | zero => exact ⟨h, rfl⟩
  | succ n ih =>
    rw [openLevels]
    have hopened : { st with
        listTypes := theType :: st.listTypes
        listElements := theElement :: st.listElements }.Holds pre noAutoLink table :=
      ⟨h.pre, h.noAutoLink, h.table, by simp [h.lists]⟩
    obtain ⟨hholds, hlen⟩ := ih false _ hopened
    refine ⟨hholds, hlen.trans ?_⟩
    simp only [List.length_cons]
    omega

theorem closeLevels_holds (n : Nat) (result : StringBuffer) (h : st.Holds pre noAutoLink table) :
    (closeLevels n st result).1.Holds pre noAutoLink table ∧
      (closeLevels n st result).1.listTypes.length = st.listTypes.length - n := by
  induction n generalizing st result with
  | zero => exact ⟨h, rfl⟩
  | succ n ih =>
    rw [closeLevels]
    have hclosed : { st with
        listTypes := st.listTypes.tail
        listElements := st.listElements.tail }.Holds pre noAutoLink table :=
      ⟨h.pre, h.noAutoLink, h.table, by simp [h.lists]⟩
    obtain ⟨hholds, hlen⟩ := ih _ hclosed
    refine ⟨hholds, hlen.trans ?_⟩
    simp only [List.length_tail]
    omega

/-- After `emitList` there are as many lists as asked for. -/
theorem emitList_holds (theType theElement : Bytes) (theDepth : Nat) (theOlType : Option Bytes)
    (h : st.Holds pre noAutoLink table) :
    (emitList theType theElement theDepth theOlType st).2.Holds pre noAutoLink table ∧
      (emitList theType theElement theDepth theOlType st).2.listTypes.length = theDepth := by
  have hlist : { st with isList := true }.Holds pre noAutoLink table :=
    ⟨h.pre, h.noAutoLink, h.table, h.lists⟩
  rw [emitList]
  dsimp only
  generalize hlevels : (if st.listTypes.length < theDepth then
      openLevels theType theElement (olType theOlType) (theDepth - st.listTypes.length) true
        { st with isList := true } {}
    else if st.listTypes.length > theDepth then
      ((closeLevels (st.listTypes.length - theDepth) { st with isList := true } {}).1,
        closeElement (closeLevels (st.listTypes.length - theDepth) { st with isList := true } {}).1
          (closeLevels (st.listTypes.length - theDepth) { st with isList := true } {}).2)
    else ({ st with isList := true }, closeElement { st with isList := true } {})) = levels
  have hholds : levels.1.Holds pre noAutoLink table ∧ levels.1.listTypes.length = theDepth := by
    rw [← hlevels]
    split_ifs with hopen hclose
    · obtain ⟨hholds, hlen⟩ := openLevels_holds theType theElement (olType theOlType)
        (theDepth - st.listTypes.length) true {} hlist
      refine ⟨hholds, hlen.trans ?_⟩
      dsimp only
      omega
    · obtain ⟨hholds, hlen⟩ := closeLevels_holds (st.listTypes.length - theDepth) {} hlist
      refine ⟨hholds, hlen.trans ?_⟩
      dsimp only
      omega
    · exact ⟨hlist, by dsimp only; omega⟩
  obtain ⟨st', result⟩ := levels
  obtain ⟨hst, hlen⟩ := hholds
  dsimp only at hst hlen ⊢
  cases htypes : st'.listTypes with
  | nil => exact ⟨hst, hlen⟩
  | cons lastType rest =>
    dsimp only
    split_ifs
    · refine ⟨⟨hst.pre, hst.noAutoLink, hst.table, ?_⟩, ?_⟩
      · have hlists := hst.lists
        rw [htypes, List.length_cons] at hlists
        simp [hlists]
      · rw [htypes] at hlen
        exact hlen
    · exact ⟨hst, hlen⟩

theorem listItem_holds (p : Pattern) (theType line : Bytes) (h : st.Holds pre noAutoLink table) :
    (listItem p theType line st).2.Holds pre noAutoLink table :=
  gsubState_preserves (P := FormatterState.Holds pre noAutoLink table)
    (fun _ _ hst => (emitList_holds _ _ _ _ hst).1.addString _) line h

theorem lists_holds (line : Bytes) (h : st.Holds pre noAutoLink table) :
    (lists line st).2.Holds pre noAutoLink table := by
  have h₁ := listItem_holds (pat "^([ ]+)%* ") (str "UL") line h
  rw [lists]
  generalize listItem (pat "^([ ]+)%* ") (str "UL") line st = item₁ at h₁ ⊢
  obtain ⟨line₁, st₁⟩ := item₁
  have h₂ := listItem_holds (pat "^([ ]+)(%d+%.?) ?") (str "OL") line₁ h₁
  dsimp only at h₂ ⊢
  generalize listItem (pat "^([ ]+)(%d+%.?) ?") (str "OL") line₁ st₁ = item₂ at h₂ ⊢
  obtain ⟨line₂, st₂⟩ := item₂
  have h₃ := listItem_holds (pat "^([ ]+)([1AaIi]%.) ?") (str "OL") line₂ h₂
  dsimp only at h₃ ⊢
  generalize listItem (pat "^([ ]+)([1AaIi]%.) ?") (str "OL") line₂ st₂ = item₃ at h₃ ⊢
  obtain ⟨line₃, st₃⟩ := item₃
  dsimp only at h₃ ⊢
  split_ifs
  · exact h₃
  · have hclosed := (emitList_holds [] [] 0 none h₃).1
    exact ⟨hclosed.pre, hclosed.noAutoLink, hclosed.table, hclosed.lists⟩

theorem paragraphs_holds (line : Bytes) (h : st.Holds pre noAutoLink table) :
    (paragraphs line st).2.Holds pre noAutoLink table := by
  rw [paragraphs]
  dsimp only
  split_ifs
  · exact ⟨h.pre, h.noAutoLink, h.table, h.lists⟩
  · exact h

/-- Looking a topic up is seen in the trace only. -/
theorem internalLink_holds {theTopic : Bytes} {theAnchor theText : Option Bytes}
    (h : st.Holds pre noAutoLink table) :
    (internalLink env theTopic theAnchor theText st).2.Holds pre noAutoLink table := by
  have hprobed : ∀ probed, { st with probed }.Holds pre noAutoLink table :=
    fun _ => ⟨h.pre, h.noAutoLink, h.table, h.lists⟩
  have hlink : (WikiFormatter.internalLink env theTopic theAnchor theText st).2.Holds pre noAutoLink
      table := by
    simp only [WikiFormatter.internalLink, probe]
    by_cases hspecial : env.isSpecialPage theTopic = true
    · rw [if_pos hspecial]
      exact h
    · rw [if_neg hspecial]
      by_cases hplural : (!env.topicExists theTopic && lastByte theTopic = str "s") = true
      · simp only [hplural, ↓reduceIte]
        split
        · exact hprobed _
        · exact hprobed _
      · simp only [hplural, Bool.false_eq_true, ↓reduceIte]
        split
        · exact hprobed _
        · exact hprobed _
  rw [internalLink]
  cases env.cls with
  | printable => exact h
  | wiki => exact hlink
  | exporting => exact hlink

theorem hyperLinks_holds (line : Bytes) (h : st.Holds pre noAutoLink table) :
    (hyperLinks env line st).2.Holds pre noAutoLink table := by
  refine gsubState_preserves (P := FormatterState.Holds pre noAutoLink table)
    (fun cs st hst => ?_) line h
  rw [specificLink]
  dsimp only
  split_ifs
  · exact hst
  · exact internalLink_holds hst

theorem autoLinks_holds (line : Bytes) (h : st.Holds pre noAutoLink table) :
    (autoLinks env line st).2.Holds pre noAutoLink table := by
  have hlinks : ∀ {p : Pattern} {f : List Bytes → FormatterState → Bytes × FormatterState},
      (∀ cs st, st.Holds pre noAutoLink table → (f cs st).2.Holds pre noAutoLink table) →
      ∀ (line : Bytes) (st : FormatterState), st.Holds pre noAutoLink table →
        (gsubState p f line st).2.Holds pre noAutoLink table :=
    fun hf line _ hst =>
      gsubState_preserves (P := FormatterState.Holds pre noAutoLink table) hf line hst
  rw [autoLinks]
  split_ifs
  · exact h
  · dsimp only
    refine hlinks (fun cs st hst => ?_) _ _ (hlinks (fun cs st hst => ?_) line st h)
    · exact internalLink_holds hst
    · exact internalLink_holds hst

/-- What is done to a line before tables are looked for. -/
def beforeTables (cls : FormatterClass) (line : Bytes) : Bytes :=
  horizontalRule (headings (entities (embeddedUrls cls (embeddedHtml (blockQuote line)))))

theorem processTableLine_holds (line : Bytes) (h : st.Holds pre noAutoLink table) :
    (processTableLine line st).2.Holds pre noAutoLink
      (capture? (pat "^%s*(|.*|)%s*$") line).isSome := by
  rw [processTableLine]
  cases capture? (pat "^%s*(|.*|)%s*$") line with
  | none =>
    dsimp only
    split_ifs with hinside
    · exact ⟨h.pre, h.noAutoLink, rfl, h.lists⟩
    · exact ⟨h.pre, h.noAutoLink, by simpa using hinside, h.lists⟩
  | some row => exact ⟨h.pre, h.noAutoLink, rfl, h.lists⟩

theorem formatWikiLine_eq (env : FormatterEnv) (line : Bytes) (st : FormatterState) :
    formatWikiLine env line st =
      let row := processTableLine (beforeTables env.cls line) st
      let paragraph := paragraphs row.1 row.2
      let item := lists paragraph.1 paragraph.2
      let linked := hyperLinks env (emphasis (str " " ++ anchors item.1 ++ str " ")) item.2
      let auto := autoLinks env linked.1 linked.2
      (percentVariables auto.1, auto.2) := by
  simp only [formatWikiLine, beforeTables]

/-- A line leaves a table open exactly when it is a row itself. -/
theorem formatWikiLine_holds (env : FormatterEnv) (line : Bytes)
    (h : st.Holds pre noAutoLink table) :
    (formatWikiLine env line st).2.Holds pre noAutoLink
      (capture? (pat "^%s*(|.*|)%s*$") (beforeTables env.cls line)).isSome := by
  rw [formatWikiLine_eq]
  dsimp only
  refine autoLinks_holds _ (hyperLinks_holds _ (lists_holds _ (paragraphs_holds _ ?_)))
  exact processTableLine_holds _ h

/-! ### Lines that are no table rows -/

/-- Neither a bar nor a blank: no table row ends in it. -/
def endsNoRow (b : Byte) : Bool := b != ch '|' && !isSpace b

theorem table_pattern : pat "^%s*(|.*|)%s*$" =
    ⟨true, [.single (.cls (ch 's')) .star, .startCapture, .single (.lit (ch '|')) .one,
      .single .any .star, .single (.lit (ch '|')) .one, .endCapture,
      .single (.cls (ch 's')) .star, .eos]⟩ := by decide

theorem no_row_of_endsIn {line : Bytes} (h : EndsIn endsNoRow line) :
    capture? (pat "^%s*(|.*|)%s*$") line = none := by
  rw [capture?, table_pattern, find, if_pos rfl]
  cases hm : doMatch [.single (.cls (ch 's')) .star, .startCapture, .single (.lit (ch '|')) .one,
      .single .any .star, .single (.lit (ch '|')) .one, .endCapture,
      .single (.cls (ch 's')) .star, .eos] [] line with
  | none => simp [matchHere, hm]
  | some r =>
    obtain ⟨blanks, v, rfl, _, hm⟩ := doMatch_star_sound hm
    rw [doMatch] at hm
    obtain ⟨first, v, rfl, _, hm⟩ := doMatch_one_sound hm
    obtain ⟨cells, v, rfl, _, hm⟩ := doMatch_star_sound hm
    obtain ⟨bar, v, rfl, hbar, hm⟩ := doMatch_one_sound hm
    rw [doMatch] at hm
    obtain ⟨blanks', v, rfl, hblanks, hm⟩ := doMatch_star_sound hm
    rw [doMatch] at hm
    split at hm
    · rename_i hnil
      subst hnil
      exfalso
      -- the last byte is the bar or a blank after it
      have htail : EndsIn endsNoRow (bar :: blanks') := by
        refine h.of_suffix ?_ (by simp)
        refine ⟨blanks ++ first :: cells, ?_⟩
        simp
      obtain ⟨u, b, hu, hb⟩ := htail
      have hmem : b ∈ bar :: blanks' := by simp [hu]
      rcases List.mem_cons.mp hmem with rfl | hmem
      · obtain rfl : ch '|' = b := by simpa [singleMatch] using hbar
        exact absurd hb (by decide)
      · have hspace : isSpace b = true := hblanks b hmem
        simp [endsNoRow, hspace] at hb
    · cases hm

theorem blockQuote_endsIn {line : Bytes} (h : EndsIn endsNoRow line) :
    EndsIn endsNoRow (blockQuote line) := gsubStr_endsIn (by decide) (by decide) h

theorem embeddedHtml_endsIn {line : Bytes} (h : EndsIn endsNoRow line) :
    EndsIn endsNoRow (embeddedHtml line) := by
  iterate 12 refine gsubStr_endsIn (by decide) (by decide) ?_
  exact h

theorem entities_endsIn {line : Bytes} (h : EndsIn endsNoRow line) :
    EndsIn endsNoRow (entities line) := by
  iterate 4 refine gsubStr_endsIn (by decide) (by decide) ?_
  exact h

theorem horizontalRule_endsIn {line : Bytes} (h : EndsIn endsNoRow line) :
    EndsIn endsNoRow (horizontalRule line) := gsubStr_endsIn (by decide) (by decide) h

theorem heading_pattern : pat "^(%-%-%-%++ )(.*)$" =
    ⟨true, [.startCapture, .single (.cls (ch '-')) .one, .single (.cls (ch '-')) .one,
      .single (.cls (ch '-')) .one, .single (.cls (ch '+')) .plus, .single (.lit (ch ' ')) .one,
      .endCapture, .startCapture, .single .any .star, .endCapture, .eos]⟩ := by decide

/-- The two captures of a heading make up the line, and the first one is the mark of the heading. -/
theorem matchHere_heading {v : Bytes} {m : Match}
    (h : matchHere (pat "^(%-%-%-%++ )(.*)$").items v = some m) :
    m.captures.getD 0 [] ++ m.captures.getD 1 [] = v ∧
      ∀ b ∈ m.captures.getD 0 [], b ∈ str "-+ " := by
  have hdash : ∀ b, singleMatch b (.cls (ch '-')) = true → b ∈ str "-+ " := by
    refine forall_byte ?_
    decide +kernel
  have hplus : ∀ b, singleMatch b (.cls (ch '+')) = true → b ∈ str "-+ " := by
    refine forall_byte ?_
    decide +kernel
  have hblank : ∀ b, singleMatch b (.lit (ch ' ')) = true → b ∈ str "-+ " := by
    refine forall_byte ?_
    decide +kernel
  rw [heading_pattern] at h
  obtain ⟨⟨r, c⟩, hm, rfl⟩ := Option.map_eq_some_iff.mp h
  rw [doMatch] at hm
  obtain ⟨b₁, v₁, rfl, h₁, hm⟩ := doMatch_one_sound hm
  obtain ⟨b₂, v₂, rfl, h₂, hm⟩ := doMatch_one_sound hm
  obtain ⟨b₃, v₃, rfl, h₃, hm⟩ := doMatch_one_sound hm
  obtain ⟨plus, v₄, rfl, _, hmarks, hm⟩ := doMatch_plus_sound hm
  obtain ⟨b₄, v₅, rfl, h₄, hm⟩ := doMatch_one_sound hm
  rw [doMatch, endCapture_append, doMatch] at hm
  obtain ⟨rest, v₆, rfl, _, hm⟩ := doMatch_star_sound hm
  rw [doMatch, endCapture_append, doMatch] at hm
  split at hm
  · rename_i hnil
    subst hnil
    obtain ⟨rfl, rfl⟩ := Prod.mk.inj (Option.some.inj hm)
    have hlen : (b₁ :: b₂ :: b₃ :: (plus ++ b₄ :: rest)).length - rest.length =
        (b₁ :: b₂ :: b₃ :: (plus ++ [b₄])).length := by
      simp only [List.length_cons, List.length_append, List.length_nil]
      omega
    have hsplit : b₁ :: b₂ :: b₃ :: (plus ++ b₄ :: rest) =
        (b₁ :: b₂ :: b₃ :: (plus ++ [b₄])) ++ rest := by simp
    simp only [List.append_nil, List.length_nil, Nat.sub_zero, hlen, pushCaptures, List.nil_append,
      List.singleton_append, List.map_cons, reduceCtorEq, ↓reduceIte, List.getD_cons_zero,
      List.getD_cons_succ, List.take_length]
    rw [hsplit, List.take_left]
    refine ⟨rfl, fun b hb => ?_⟩
    simp only [List.mem_cons, List.mem_append, List.not_mem_nil, or_false] at hb
    rcases hb with rfl | rfl | rfl | hb | rfl
    · exact hdash _ h₁
    · exact hdash _ h₂
    · exact hdash _ h₃
    · exact hplus b (hmarks b hb)
    · exact hblank _ h₄
  · cases hm

theorem headings_endsIn {line : Bytes} (h : EndsIn endsNoRow line) :
    EndsIn endsNoRow (headings line) := by
  refine replaceAll_endsIn (by decide) h fun v m hv hm _ => ?_
  have hne : v ≠ [] := by
    rintro rfl
    rw [matchHere_nil (by decide)] at hm
    cases hm
  have hwhole := (matchHere_heading hm).1
  dsimp only
  split_ifs
  · have htag : str ">" = [ch '>'] := by decide
    rw [htag]
    exact ⟨_, ch '>', rfl, by decide⟩
  · rw [hwhole]
    exact h.of_suffix hv hne

/-- The bytes of an address, and those that can end one. -/
def urlByte : Single := .set true [.cls (ch 's'), .lit (ch '<'), .lit (ch '>'), .lit (ch '"')]

def urlLast : Single :=
  .set true [.cls (ch 's'), .lit (ch '.'), .lit (ch ','), .lit (ch '!'), .lit (ch '?'),
    .lit (ch ';'), .lit (ch ':'), .lit (ch ')'), .lit (ch '<'), .lit (ch '='), .lit (ch '_'),
    .lit (ch '*')]

def urlItems : List Item :=
  [.startCapture, .single (.set true [.cls (ch '[')]) .one, .endCapture, .startCapture,
    .single (.cls (ch 'w')) .plus, .endCapture, .single (.lit (ch ':')) .one, .startCapture,
    .single urlByte .plus, .single urlLast .one, .endCapture, .startCapture,
    .single (.set true [.cls (ch ']')]) .one, .endCapture]

theorem url_pattern :
    pat "([^%[])(%w+):([^%s<>\"]+[^%s.,!?;:)<=_*])([^%]])" = ⟨false, urlItems⟩ := by decide

/-- The parts of a URL in a text: the byte before it, its scheme, its address, and the byte
after it. -/
structure UrlMatch (v : Bytes) (m : Match) where
  charBefore : Byte
  urlType : Bytes
  start : Bytes
  last : Byte
  charAfter : Byte
  subject : v = charBefore :: (urlType ++ ch ':' :: (start ++ last :: charAfter :: m.after))
  captures : m.captures = [[charBefore], urlType, start ++ [last], [charAfter]]
  typeBytes : urlType ≠ [] ∧ ∀ b ∈ urlType, isAlnum b = true
  startBytes : start ≠ [] ∧ ∀ b ∈ start, singleMatch b urlByte = true
  lastByte : singleMatch last urlLast = true

theorem matchHere_url {v : Bytes} {m : Match} (h : matchHere urlItems v = some m) :
    Nonempty (UrlMatch v m) := by
  obtain ⟨⟨r, c⟩, hm, rfl⟩ := Option.map_eq_some_iff.mp h
  rw [urlItems, doMatch] at hm
  obtain ⟨charBefore, v₁, rfl, _, hm⟩ := doMatch_one_sound hm
  replace hm := (doMatch_endCapture [charBefore] v₁).symm.trans hm
  rw [doMatch] at hm
  obtain ⟨urlType, v₂, rfl, htype, htype', hm⟩ := doMatch_plus_sound hm
  replace hm := (doMatch_endCapture urlType v₂).symm.trans hm
  obtain ⟨colon, v₃, rfl, hcolon, hm⟩ := doMatch_one_sound hm
  obtain rfl : ch ':' = colon := by simpa [singleMatch] using hcolon
  rw [doMatch] at hm
  obtain ⟨start, v₄, rfl, hstart, hstart', hm⟩ := doMatch_plus_sound hm
  obtain ⟨last, v₅, rfl, hlast, hm⟩ := doMatch_one_sound hm
  rw [show start ++ last :: v₅ = start ++ [last] ++ v₅ by simp] at hm
  replace hm := (doMatch_endCapture (start ++ [last]) v₅).symm.trans hm
  rw [doMatch] at hm
  obtain ⟨charAfter, v₆, rfl, _, hm⟩ := doMatch_one_sound hm
  replace hm := (doMatch_endCapture [charAfter] v₆).symm.trans hm
  obtain ⟨rfl, rfl⟩ := Prod.mk.inj (Option.some.inj hm)
  exact ⟨⟨charBefore, urlType, start, last, charAfter, rfl, rfl, ⟨htype, htype'⟩,
    ⟨hstart, hstart'⟩, hlast⟩⟩

theorem embeddedUrls_endsIn {cls : FormatterClass} {line : Bytes} (h : EndsIn endsNoRow line) :
    EndsIn endsNoRow (embeddedUrls cls line) := by
  refine replaceAll_endsIn (by decide) h fun v m hv hm hafter => ?_
  rw [url_pattern] at hm
  obtain ⟨url⟩ := matchHere_url hm
  have hsuffix : [url.charAfter] <:+ v := by
    refine ⟨url.charBefore :: (url.urlType ++ ch ':' :: (url.start ++ [url.last])), ?_⟩
    simpa [hafter] using url.subject.symm
  have hlast : EndsIn endsNoRow [url.charAfter] := h.of_suffix (hsuffix.trans hv) (by simp)
  have hout := hlast.append
    ([url.charBefore] ++ processUrl cls url.urlType (url.start ++ [url.last]))
  simpa [url.captures] using hout

theorem beforeTables_endsIn {cls : FormatterClass} {line : Bytes} (h : EndsIn endsNoRow line) :
    EndsIn endsNoRow (beforeTables cls line) :=
  horizontalRule_endsIn (headings_endsIn (entities_endsIn (embeddedUrls_endsIn
    (embeddedHtml_endsIn (blockQuote_endsIn h)))))

/-! ### The last line of a page -/

/-- The text ends in a line feed after a byte that ends no row and joins no line. -/
def LastLineEnds (text : Bytes) : Prop :=
  ∃ u g, text = u ++ [g, 10] ∧ endsNoRow g = true ∧ g ≠ ch '\\'

theorem verbatim_pattern : pat "<verbatim>(.-)</verbatim>" =
    ⟨false, (literalItems (str "<verbatim>") ++
      [.startCapture, .single .any .minus, .endCapture]) ++
        literalItems (str "</verbatim>")⟩ := by decide

theorem join_pattern : pat "\\\n" = ⟨false, [] ++ literalItems [ch '\\', 10]⟩ := by decide

/-- Where a match cannot reach the line feed at the end, the end of the text stays. -/
theorem match_end {is : List Item} {bs : Bytes} {u v : Bytes} {g b : Byte} {m : Match}
    (hm : matchHere (is ++ literalItems bs) v = some m) (hv : v <:+ u ++ [g, b]) :
    (m.after = [] → bs <:+ u ++ [g, b]) ∧ (m.after = [b] → bs <:+ u ++ [g]) := by
  obtain ⟨w, hw⟩ := matchHere_literal_end hm
  have happ := matchHere_append hm
  obtain ⟨x, hx⟩ := hv
  constructor
  · intro hafter
    rw [hafter, List.append_nil, hw] at happ
    exact ⟨x ++ w, by rw [List.append_assoc, happ, hx]⟩
  · intro hafter
    rw [hafter, hw] at happ
    refine ⟨x ++ w, ?_⟩
    have hall : (x ++ w ++ bs) ++ [b] = (u ++ [g]) ++ [b] := by
      rw [List.append_assoc x, List.append_assoc x, happ, hx]
      simp
    exact List.append_cancel_right hall

theorem suffix_last {u v : Bytes} {a b : Byte} (h : u ++ [a] <:+ v ++ [b]) : a = b := by
  obtain ⟨w, hw⟩ := h
  rw [← List.append_assoc] at hw
  exact (List.append_inj_right' hw rfl |> List.singleton_inj.mp)

theorem lastLineEnds_nop (content : Bytes) :
    LastLineEnds (gsubStr (pat "(\n?)$") (str "\n<nop>\n") content) := by
  have hp : pat "(\n?)$" =
      ⟨false, [.startCapture, .single (.lit 10) .opt, .endCapture, .eos]⟩ := by decide
  have hnil : matchHere [.startCapture, .single (.lit 10) .opt, .endCapture, .eos] [] =
      some ⟨[], [[]], []⟩ := by decide
  obtain ⟨pieces, hpieces⟩ := scanFrom_last_hit hnil (Nat.zero_le content.length)
  have hplain : addS ⟨[], [[]], []⟩ (str "\n<nop>\n") = str "\n<nop" ++ [ch '>', 10] :=
    (addS_plain _ (by decide)).trans (by decide)
  rw [gsubStr, replaceAll, scan, hp, if_neg (by simp), hpieces, List.flatMap_append,
    List.flatMap_singleton]
  dsimp only
  rw [hplain, ← List.append_assoc]
  exact ⟨_, _, rfl, by decide, by decide⟩

theorem lastLineEnds_takeOutVerbatim {text : Bytes} (h : LastLineEnds text) :
    LastLineEnds (takeOutVerbatim text).1 := by
  obtain ⟨u, g, htext, hg, hjoin⟩ := h
  have hclose : str "</verbatim>" = str "</verbatim" ++ [ch '>'] := by decide
  have hdouble : u ++ [g, 10] = (u ++ [g]) ++ [10] := by simp
  obtain ⟨pieces, last, hscan, hlast⟩ := scanFrom_end
    ((literalItems (str "<verbatim>") ++ [.startCapture, .single .any .minus, .endCapture]) ++
      literalItems (str "</verbatim>")) (by decide) htext (fun v m hv hm hafter => by
      have hsuffix := (match_end hm (htext ▸ hv)).1 hafter
      rw [hclose, hdouble] at hsuffix
      exact absurd (suffix_last hsuffix) (by decide))
  rw [takeOutVerbatim, gsubState_eq, scan, verbatim_pattern, if_neg (by simp), hscan,
    List.foldl_append, List.foldl_append]
  generalize pieces.foldl _ _ = out
  obtain ⟨out, verbatimList⟩ := out
  rcases hlast with rfl | ⟨v, m, _, _, _, rfl⟩
  · exact ⟨out, g, by simp [gsubStep], hg, hjoin⟩
  · have hend : str ")VERBATIM" = str ")VERBATI" ++ [ch 'M'] := by decide
    refine ⟨out ++ (str "VERBATIM(" ++ decimal (verbatimList.length + 1) ++ str ")VERBATI"), ch 'M',
      ?_, by decide, by decide⟩
    simp [gsubStep, verbatimMarker, hend]

theorem lastLineEnds_join {text : Bytes} (h : LastLineEnds text) :
    LastLineEnds (gsubStr (pat "\\\n") [] text) := by
  obtain ⟨u, g, htext, hg, hjoin⟩ := h
  obtain ⟨pieces, last, hscan, hlast⟩ :=
    scanFrom_end ([] ++ literalItems [ch '\\', 10]) (by decide) htext
      (fun v m hv hm hafter => by
        obtain ⟨w, hw⟩ := (match_end hm (htext ▸ hv)).1 hafter
        have hpair := List.append_inj_right' hw rfl
        exact hjoin (List.cons.inj hpair).1.symm)
  rw [gsubStr, replaceAll, scan, join_pattern, if_neg (by simp), hscan, List.flatMap_append,
    List.flatMap_append]
  rcases hlast with rfl | ⟨v, m, hv, hm, hafter, rfl⟩
  · exact ⟨_, g, List.append_assoc _ _ _, hg, hjoin⟩
  · obtain ⟨w, hw⟩ := (match_end hm (htext ▸ hv)).2 hafter
    have hten : (10 : Byte) = g :=
      suffix_last (u := []) (v := u) ⟨w ++ [ch '\\'], by simpa using hw⟩
    subst hten
    exact absurd hg (by decide)

theorem lastLineEnds_pageText (content : Bytes) : LastLineEnds (pageText content).1 :=
  lastLineEnds_join (lastLineEnds_takeOutVerbatim (lastLineEnds_nop _))

/-- The lines that the loop of `formatWikiPage` goes through. -/
def textLines (text : Bytes) : List Bytes :=
  (gfind (pat "([^\n]*)\n") text).map fun c => c.getD 0 []

theorem line_pattern : pat "([^\n]*)\n" =
    ⟨false, [.startCapture, .single (.set true [.lit 10]) .star, .endCapture,
      .single (.lit 10) .one]⟩ := by decide

theorem textLines_nil : textLines [] = [] := by
  rw [textLines, line_pattern, gfind_nil (by decide)]
  rfl

theorem textLines_cons {l : Bytes} (rest : Bytes) (hl : 10 ∉ l) :
    textLines (l ++ 10 :: rest) = l :: textLines rest := by
  have hclass : ∀ b, singleMatch b (.set true [.lit 10]) = (b != 10) := by
    intro b
    simp [singleMatch, matchBracketClass, SetItem.test, bne, BEq.comm]
  have hd : doMatch [.startCapture, .single (.set true [.lit 10]) .star, .endCapture,
      .single (.lit 10) .one] [] (l ++ 10 :: rest) = some (rest, [.done l]) := by
    refine doMatch_capture_star (fun b hb => ?_) (fun b t h => ?_) (doMatch_one (by decide))
    · rw [hclass, bne_iff_ne]
      rintro rfl
      exact hl hb
    · obtain ⟨rfl, _⟩ := List.cons.inj h
      decide
  have hsplit : l ++ 10 :: rest = (l ++ [10]) ++ rest := by simp
  rw [hsplit] at hd
  have hm := matchHere_of_doMatch hd
  rw [hsplit, textLines, line_pattern, gfind_hit hm (by simp)]
  rfl

/-- The last line of a page is no table row. -/
theorem textLines_last {text : Bytes} (h : LastLineEnds text) :
    ∃ lines last, textLines text = lines ++ [last] ∧ EndsIn endsNoRow last := by
  obtain ⟨u, g, rfl, hg, _⟩ := h
  induction hn : u.length using Nat.strong_induction_on generalizing u with
  | _ n ih =>
    by_cases hmem : 10 ∈ u
    · obtain ⟨l, u', rfl, hl⟩ := List.eq_append_cons_of_mem hmem
      obtain ⟨lines, last, hlines, hlast⟩ := ih u'.length (by simp [← hn]; omega) u' rfl
      refine ⟨l :: lines, last, ?_, hlast⟩
      have hcons := textLines_cons (u' ++ [g, 10]) hl
      simpa [hlines] using hcons
    · have hline : 10 ∉ u ++ [g] := by
        have hne : g ≠ 10 := by
          rintro rfl
          exact absurd hg (by decide)
        simp [hmem, hne.symm]
      have hcons := textLines_cons [] hline
      rw [textLines_nil] at hcons
      exact ⟨[], u ++ [g], by simpa using hcons, u, g, rfl, hg⟩

/-! ### Pages -/

theorem lineModes_holds {m : FormatterState} (l : Bytes)
    (h : st.Holds m.insidePre m.insideNoAutoLink table) :
    (lineModes l st).Holds (lineModes l m).insidePre (lineModes l m).insideNoAutoLink table := by
  rw [lineModes, lineModes]
  split_ifs
  · exact ⟨rfl, rfl, h.table, h.lists⟩
  · exact ⟨rfl, rfl, h.table, h.lists⟩
  · exact ⟨h.pre, rfl, h.table, h.lists⟩
  · exact ⟨rfl, rfl, h.table, h.lists⟩
  · exact ⟨rfl, rfl, h.table, h.lists⟩
  · exact ⟨h.pre, rfl, h.table, h.lists⟩
  · exact ⟨rfl, h.noAutoLink, h.table, h.lists⟩
  · exact ⟨rfl, h.noAutoLink, h.table, h.lists⟩
  · exact h

/-- A line sets the switches as `lineModes` does, and closes the table unless it is a row or
verbatim. -/
theorem pageLine_holds {m : FormatterState} (env : FormatterEnv) (l : Bytes)
    (h : st.Holds m.insidePre m.insideNoAutoLink table) :
    ∃ table', (pageLine env l st).Holds (lineModes l m).insidePre
      (lineModes l m).insideNoAutoLink table' ∧
        (EndsIn endsNoRow l → (lineModes l m).insidePre = false → table' = false) := by
  have hmodes := lineModes_holds l h
  rw [pageLine]
  cases hpre : (lineModes l st).insidePre with
  | true =>
    refine ⟨table, ?_, fun _ hout => ?_⟩
    · simp only [↓reduceIte]
      split_ifs
      · have hclosed := (emitList_holds [] [] 0 none hmodes).1
        exact ⟨hclosed.pre, hclosed.noAutoLink, hclosed.table, hclosed.lists⟩
      · exact hmodes.addString _
    · rw [← hmodes.pre, hpre] at hout
      cases hout
  | false =>
    simp only [Bool.false_eq_true, ↓reduceIte]
    have hformat := formatWikiLine_holds env l hmodes
    refine ⟨_, hformat.addString _, fun hend _ => ?_⟩
    rw [no_row_of_endsIn (beforeTables_endsIn hend)]
    rfl

/-- The switches after some lines, given those before them. -/
def switches (lines : List Bytes) (st : FormatterState) : FormatterState :=
  lines.foldl (fun st l => lineModes l st) st

theorem pageLines_holds {m : FormatterState} (env : FormatterEnv) (lines : List Bytes)
    (h : st.Holds m.insidePre m.insideNoAutoLink table) :
    ∃ table', (lines.foldl (fun st l => pageLine env l st) st).Holds (switches lines m).insidePre
      (switches lines m).insideNoAutoLink table' := by
  induction lines generalizing st m table with
  | nil => exact ⟨table, h⟩
  | cons l lines ih =>
    obtain ⟨table', hline, _⟩ := pageLine_holds env l h
    exact ih hline

/-- The lines of a page. -/
def pageLines (content : Bytes) : List Bytes := textLines (pageText content).1

theorem pageEnd_holds (h : st.Holds pre noAutoLink table) :
    (pageEnd st).Holds pre noAutoLink table ∧ (pageEnd st).listTypes = [] := by
  have hbefore : (if st.insideTable then st.addString (some (str "</table>\n")) else st).Holds
      pre noAutoLink table := by
    split_ifs
    · exact h.addString _
    · exact h
  obtain ⟨hclosed, hlen⟩ := emitList_holds [] [] 0 none hbefore
  have hnil := List.length_eq_zero_iff.mp hlen
  rw [pageEnd]
  generalize (if st.insideTable = true then st.addString (some (str "</table>\n")) else st) = st'
    at hclosed hnil ⊢
  dsimp only
  split_ifs
  all_goals exact ⟨⟨hclosed.pre, hclosed.noAutoLink, hclosed.table, hclosed.lists⟩, hnil⟩

theorem formatWikiPage_eq (env : FormatterEnv) (content : Bytes) (st : FormatterState) :
    formatWikiPage env content st =
      let last := pageEnd ((pageLines content).foldl (fun st l => pageLine env l st)
        { st with isList := false, result := {} })
      (gsubStr (pat "\n?<nop>\n$") []
        (putBackVerbatim (last.result.toString.1.getD []) (pageText content).2),
        { last with result := last.result.toString.2 }) := by
  rw [formatWikiPage, pageLines, textLines, List.foldl_map]

/-- A page that has been rendered leaves the switches of its lines, no list, and a table only
inside a PRE section. -/
theorem formatWikiPage_holds {m : FormatterState} (env : FormatterEnv) (content : Bytes)
    (h : st.Holds m.insidePre m.insideNoAutoLink table) :
    ∃ table', (formatWikiPage env content st).2.Holds (switches (pageLines content) m).insidePre
      (switches (pageLines content) m).insideNoAutoLink table' ∧
        (formatWikiPage env content st).2.listTypes = [] ∧
        ((switches (pageLines content) m).insidePre = false → table' = false) := by
  have hstart : { st with isList := false, result := {} }.Holds m.insidePre m.insideNoAutoLink
      table := ⟨h.pre, h.noAutoLink, h.table, h.lists⟩
  obtain ⟨lines, last, hlines, hend⟩ := textLines_last (lastLineEnds_pageText content)
  obtain ⟨_, hbefore⟩ := pageLines_holds env lines hstart
  obtain ⟨table', hlast, htable⟩ := pageLine_holds env last hbefore
  have hswitches : switches (pageLines content) m = lineModes last (switches lines m) := by
    rw [pageLines, hlines, switches, switches, List.foldl_append]
    rfl
  obtain ⟨hholds, hnil⟩ := pageEnd_holds hlast
  rw [formatWikiPage_eq, hswitches, pageLines, hlines, List.foldl_append]
  exact ⟨table', ⟨hholds.pre, hholds.noAutoLink, hholds.table, hholds.lists⟩, hnil, htable hend⟩

/-! ### Histories -/

/-- The formatter after it has rendered some pages, with an empty trace. -/
def FormatterState.after (env : FormatterEnv) (contents : List Bytes) (st : FormatterState) :
    FormatterState :=
  contents.foldl (fun st c => { (formatWikiPage env c st).2 with probed := [] }) st

/-- The switches after the lines of some pages. -/
def switchesAfter (contents : List Bytes) : FormatterState :=
  switches (contents.flatMap pageLines) {}

/-- What a formatter carries from one page to the next. -/
structure FormatterState.Carries (m st : FormatterState) : Prop where
  holds : st.Holds m.insidePre m.insideNoAutoLink st.insideTable
  table : m.insidePre = false → st.insideTable = false
  lists : st.listTypes = []
  probed : st.probed = []

theorem FormatterState.Carries.of_holds {m st : FormatterState} {table' : Bool}
    (h : st.Holds m.insidePre m.insideNoAutoLink table') (hnil : st.listTypes = [])
    (htable : m.insidePre = false → table' = false) : m.Carries { st with probed := [] } :=
  ⟨⟨h.pre, h.noAutoLink, rfl, h.lists⟩, fun hpre => h.table.trans (htable hpre), hnil, rfl⟩

theorem carries_page {m : FormatterState} (h : m.Carries st) (content : Bytes) :
    (switches (pageLines content) m).Carries
      { (formatWikiPage env content st).2 with probed := [] } := by
  obtain ⟨table', hholds, hnil, htable⟩ := formatWikiPage_holds env content h.holds
  exact .of_holds hholds hnil htable

theorem switches_flatMap (contents : List Bytes) (m : FormatterState) :
    switches (contents.flatMap pageLines) m =
      contents.foldl (fun m c => switches (pageLines c) m) m := by
  simp only [switches, List.foldl_flatMap]

theorem carries_after {m : FormatterState} (h : m.Carries st) (contents : List Bytes) :
    (switches (contents.flatMap pageLines) m).Carries (st.after env contents) := by
  rw [switches_flatMap, FormatterState.after]
  induction contents generalizing m st with
  | nil => exact h
  | cons c contents ih =>
    rw [List.foldl_cons, List.foldl_cons]
    exact ih (carries_page h c)

theorem FormatterState.Carries.start_eq {m : FormatterState} (h : m.Carries st) :
    { st with isList := false, result := {} } =
      { insideTable := st.insideTable, insidePre := m.insidePre,
        insideNoAutoLink := m.insideNoAutoLink : FormatterState } := by
  obtain ⟨table, inPre, inNoAutoLink, isList, types, elements, result, probed⟩ := st
  obtain ⟨hholds, _, hlists, hprobed⟩ := h
  obtain ⟨hinPre, hinNoAutoLink, _, hlen⟩ := hholds
  dsimp only at hinPre hinNoAutoLink hlen hlists hprobed
  subst hlists hprobed hinPre hinNoAutoLink
  obtain rfl : elements = [] := List.length_eq_zero_iff.mp hlen
  rfl

/-- What the next page is rendered from. -/
theorem formatWikiPage_carried {m : FormatterState} (h : m.Carries st) (content : Bytes) :
    (formatWikiPage env content st).1 =
      (formatWikiPage env content
        { insideTable := st.insideTable, insidePre := m.insidePre,
          insideNoAutoLink := m.insideNoAutoLink }).1 := by
  rw [formatWikiPage_eq, formatWikiPage_eq, h.start_eq]

/-- An empty wiki, for the formatters of a class. -/
def emptyEnv (cls : FormatterClass) : FormatterEnv := ⟨cls, fun _ => false, fun _ => false⟩

theorem formatWikiPage_nil (cls : FormatterClass) :
    (formatWikiPage (emptyEnv cls) [] {}).1 = str " <P>  <nop> " := by
  cases cls <;> decide +kernel

theorem formatWikiPage_open_pre (cls : FormatterClass) (table noAutoLink : Bool) :
    (formatWikiPage (emptyEnv cls) []
      { insideTable := table, insidePre := true, insideNoAutoLink := noAutoLink }).1 ≠
        (formatWikiPage (emptyEnv cls) [] {}).1 := by
  rw [formatWikiPage_nil]
  cases cls <;> cases table <;> cases noAutoLink <;> decide +kernel

theorem formatWikiPage_open_noAutoLink (cls : FormatterClass) :
    (formatWikiPage (emptyEnv cls) (str "FooBar#BazQux") { insideNoAutoLink := true }).1 ≠
      (formatWikiPage (emptyEnv cls) (str "FooBar#BazQux") {}).1 := by
  cases cls <;> decide +kernel

/-- Whether a formatter that has rendered some pages renders every page as a fresh one of its
class does: exactly when its switches are off after the lines of these pages. -/
theorem formatWikiPage_history_iff (cls : FormatterClass) (contents : List Bytes) :
    (∀ env : FormatterEnv, env.cls = cls → ∀ content,
      (formatWikiPage env content (FormatterState.after env contents {})).1 =
        (formatWikiPage env content {}).1) ↔
      (switchesAfter contents).insidePre = false ∧
        (switchesAfter contents).insideNoAutoLink = false := by
  have hcarries : ∀ env : FormatterEnv,
      (switchesAfter contents).Carries (FormatterState.after env contents {}) :=
    fun _ => carries_after ⟨⟨rfl, rfl, rfl, rfl⟩, fun _ => rfl, rfl, rfl⟩ contents
  constructor
  · intro h
    have hpage := fun content => h (emptyEnv cls) rfl content
    simp only [formatWikiPage_carried (hcarries (emptyEnv cls))] at hpage
    have htable := (hcarries (emptyEnv cls)).table
    revert htable hpage
    generalize (FormatterState.after (emptyEnv cls) contents {}).insideTable = table
    generalize (switchesAfter contents).insidePre = pre
    generalize (switchesAfter contents).insideNoAutoLink = noAutoLink
    intro hpage htable
    cases pre with
    | true => exact absurd (hpage []) (formatWikiPage_open_pre cls table noAutoLink)
    | false =>
      rw [htable rfl] at hpage
      cases noAutoLink with
      | true => exact absurd (hpage (str "FooBar#BazQux")) (formatWikiPage_open_noAutoLink cls)
      | false => exact ⟨rfl, rfl⟩
  · rintro ⟨hpre, hauto⟩ env _ content
    rw [formatWikiPage_carried (hcarries env), (hcarries env).table hpre, hpre, hauto]

/-- One page with an unclosed PRE section before an empty page. -/
theorem formatWikiPage_history_unclosed :
    (formatWikiPage (emptyEnv .exporting) []
      (FormatterState.after (emptyEnv .exporting) [str "<pre>"] {})).1 ≠
        (formatWikiPage (emptyEnv .exporting) [] {}).1 := by
  decide +kernel

end MoonWiki
