import MoonWiki.OpenedFiles
import MoonWiki.PlainLines

/-! The words of a line that become links. -/
namespace MoonWiki
open Lua

variable {env : FormatterEnv} {st : FormatterState} {t w : Bytes} {words : List Bytes}

/-! ### Bytes of elements -/

theorem not_mem_formatS {x : Byte} {v : Bytes} (h : x ∉ v) : x ∉ formatS v := by
  rw [formatS]
  split_ifs
  · exact h
  · exact fun hx => h ((List.takeWhile_prefix _).subset hx)

/-- A byte that is not among the marks of an element nor in its parts. -/
theorem not_mem_htk {x : Byte} {field : String} {attrs : List (String × Bytes)}
    {contain : List Bytes} (hmarks : x ∉ str " =\"</>") (hfield : x ∉ str field)
    (hattrs : ∀ a ∈ attrs, x ∉ str a.1 ∧ x ∉ a.2) (hcontain : ∀ c ∈ contain, x ∉ c) :
    x ∉ htk field attrs contain := by
  have hmark : ∀ marks : Bytes, marks ⊆ str " =\"</>" → x ∉ marks :=
    fun marks hsub hx => hmarks (hsub hx)
  have hattr : x ∉ attrs.flatMap fun a => attr a.1 a.2 := by
    intro hx
    obtain ⟨a, ha, hx⟩ := List.mem_flatMap.mp hx
    simp only [attr, List.mem_append, hmark (str " ") (by decide), hmark (str "=\"") (by decide),
      hmark (str "\"") (by decide), not_mem_formatS (hattrs a ha).1,
      not_mem_formatS (hattrs a ha).2, or_self] at hx
  have hflatten : x ∉ contain.flatten := by
    intro hx
    obtain ⟨c, hc, hx⟩ := List.mem_flatten.mp hx
    exact hcontain c hc hx
  have hend : x ∉ (if contain ≠ [] ∨ field ∉ emptyTags then
      str "</" ++ str field ++ str ">" else []) := by
    split_ifs
    · simp [hmark (str "</") (by decide), hmark (str ">") (by decide), hfield]
    · simp
  simp only [htk_eq, List.mem_append, hmark (str "<") (by decide), hmark (str ">") (by decide),
    hfield, hattr, hflatten, hend, or_self, not_false_eq_true]

theorem percent_existentPageLink {cls : FormatterClass} {topic text : Bytes}
    (htopic : ch '%' ∉ topic) (htext : ch '%' ∉ text) :
    ch '%' ∉ existentPageLink cls topic text := by
  have hclass : ch '%' ∉ str "class" ∧ ch '%' ∉ str "twikiLink" ∧ ch '%' ∉ str "href" := by decide
  have hsuffix : ch '%' ∉ serverConfig.exportSuffix := by decide
  cases cls with
  | exporting =>
    exact not_mem_htk (by decide) (by decide) (by simp [hclass, htopic, hsuffix]) (by simp [htext])
  | wiki => exact not_mem_htk (by decide) (by decide) (by simp [hclass, htopic]) (by simp [htext])
  | printable =>
    exact not_mem_htk (by decide) (by decide) (by simp [hclass, htopic]) (by simp [htext])

theorem percent_nonExistentPageLink {cls : FormatterClass} {topic text : Bytes}
    (htopic : ch '%' ∉ topic) (htext : ch '%' ∉ text) :
    ch '%' ∉ nonExistentPageLink cls topic text := by
  have hedit : ch '%' ∉ str "EditPage?page=" ++ topic := by
    rw [List.mem_append, not_or]
    exact ⟨by decide, htopic⟩
  have hhref : ch '%' ∉ str "href" := by decide
  have hquestion : ch '%' ∉ htk "SUP" [] [str "?"] := by decide
  have hfont : ch '%' ∉ htk "FONT" [("color", str "#0000FF")] [text] :=
    not_mem_htk (by decide) (by decide) (by decide) (by simp [htext])
  have hlink : ch '%' ∉
      htk "A" [("href", str "EditPage?page=" ++ topic)] [htk "SUP" [] [str "?"]] := by
    refine not_mem_htk (by decide) (by decide) ?_ (by simp [hquestion])
    intro a ha
    obtain rfl := List.mem_singleton.mp ha
    exact ⟨hhref, hedit⟩
  have hspan : ch '%' ∉ htk "SPAN" [("class", str "twikiNewLink"),
      ("style", str "background : #FFFFCE;")] [htk "FONT" [("color", str "#0000FF")] [text],
        htk "A" [("href", str "EditPage?page=" ++ topic)] [htk "SUP" [] [str "?"]]] :=
    not_mem_htk (by decide) (by decide) (by decide) (by simp [hfont, hlink])
  cases cls with
  | exporting => exact htext
  | wiki => exact hspan
  | printable => exact hspan

theorem existing_plain {call : LinkCall} {u : Bytes} (ht : Plain call.topic)
    (h : call.target env = .existing u) : Plain u := by
  rw [LinkCall.target] at h
  split_ifs at h
  rw [existingTopic] at h
  split_ifs at h
  · exact LinkTarget.existing.inj h ▸ ht
  · exact LinkTarget.existing.inj h ▸ singular_plain ht

/-- The link of a name of letters and digits has no percent sign. -/
theorem percent_internalLink {anchor : Option Bytes} (ht : Plain t)
    (hanchor : ∀ a ∈ anchor, Plain a) : ch '%' ∉ (internalLink env t anchor none st).1 := by
  have hplain : ∀ {u : Bytes}, Plain u → ch '%' ∉ u :=
    fun hu hx => absurd (hu _ hx) (by decide)
  have hwith : ∀ {u : Bytes}, Plain u → ch '%' ∉ LinkCall.withAnchor ⟨t, anchor, none⟩ u := by
    intro u hu
    cases anchor with
    | none => exact hplain hu
    | some a =>
      simp [LinkCall.withAnchor, hplain hu, hplain (hanchor a rfl), show ch '%' ∉ str "#" by decide]
  have hwiki : ch '%' ∉ (WikiFormatter.internalLink env t anchor none st).1 := by
    rw [WikiFormatter.internalLink_eq env ⟨t, anchor, none⟩ st]
    cases htarget : LinkCall.target env ⟨t, anchor, none⟩ with
    | special =>
      have hlink : ch '%' ∉ existentPageLink .wiki t t :=
        percent_existentPageLink (hplain ht) (hplain ht)
      exact hlink
    | existing u =>
      exact percent_existentPageLink (hwith (existing_plain ht htarget)) (hwith ht)
    | missing => exact percent_nonExistentPageLink (hplain ht) (hplain ht)
  cases hcls : env.cls with
  | printable =>
    rw [internalLink, hcls]
    exact hplain ht
  | wiki =>
    rw [internalLink, hcls]
    exact hwiki
  | exporting =>
    rw [internalLink, hcls]
    exact hwiki

/-! ### Words -/

/-- A text of letters and digits that begins with a WikiWord is one. -/
theorem IsWikiWord.extend (ht : IsWikiWord t) (hw : Plain w) : IsWikiWord (t ++ w) := by
  obtain ⟨u, l, v, x, rfl, hu, hl, hv, hu', hl', hv', hx⟩ := ht
  refine ⟨u, l, v, x ++ w, by simp, hu, hl, hv, hu', hl', hv', fun b hb => ?_⟩
  exact (List.mem_append.mp hb).elim (hx b) (hw b)

theorem doMatch_plain_blank (s : Bytes) :
    doMatch plainPattern.items [] (ch ' ' :: s) =
      doMatch wordItems ([.done [ch ' ']] ++ [.unfinished s]) s := by
  rw [plain_pattern, doMatch, wordItem, doMatch_one (by decide)]
  exact doMatch_endCapture [ch ' '] s

theorem matchHere_plain_word {rest : Bytes} (hw : IsWikiWord w)
    (hrest : ∀ b s, rest = b :: s → isAlnum b = false) :
    matchHere plainPattern.items (ch ' ' :: (w ++ rest)) =
      some ⟨ch ' ' :: w, [[ch ' '], w], rest⟩ := by
  have hword := (doMatch_plain_blank (w ++ rest)).trans (doMatch_wordItems hw hrest)
  rw [List.length_append, Nat.add_sub_cancel, List.take_left] at hword
  have hd : doMatch plainPattern.items [] (ch ' ' :: w ++ rest) =
      some (rest, [.done [ch ' '], .done w]) := hword
  exact matchHere_of_doMatch hd

theorem matchHere_plain_miss {rest : Bytes} (hw : Plain w) (hno : ¬ IsWikiWord w)
    (hrest : ∀ b s, rest = b :: s → isAlnum b = false) :
    matchHere plainPattern.items (ch ' ' :: (w ++ rest)) = none := by
  refine matchHere_eq_none ?_
  rw [doMatch_plain_blank]
  cases hd : doMatch wordItems ([.done [ch ' ']] ++ [.unfinished (w ++ rest)]) (w ++ rest) with
  | none => rfl
  | some r =>
    obtain ⟨t, hsplit, ht, _⟩ := doMatch_wordItems_sound hd
    -- a WikiWord at the head ends inside the word, which is then a WikiWord itself
    rcases List.append_eq_append_iff.mp hsplit with ⟨x, rfl, hx⟩ | ⟨x, rfl, _⟩
    · cases x with
      | nil => exact absurd (by simpa using ht) hno
      | cons b x =>
        have hb : isAlnum b = true := ht.alnum b (by simp)
        rw [hrest b _ hx] at hb
        cases hb
    · exact absurd (ht.extend fun b hb => hw b (List.mem_append_right t hb)) hno

theorem startsNoLink (b : Byte) (hb : isAlnum b = true) :
    singleMatch b (.set false [.cls (ch 's'), .lit (ch '(')]) = false := by
  revert hb
  revert b
  refine forall_byte ?_
  decide +kernel

/-- Words with a blank before each of them and one at the end. -/
def padded (words : List Bytes) : Bytes := words.flatMap (ch ' ' :: ·) ++ str " "

theorem not_mem_padded (h : ∀ w ∈ words, Plain w) {x : Byte} (hx : isAlnum x = false)
    (hblank : x ≠ ch ' ') : x ∉ padded words := by
  intro hmem
  rcases List.mem_append.mp hmem with hmem | hmem
  · obtain ⟨w, hw, hmem⟩ := List.mem_flatMap.mp hmem
    rcases List.mem_cons.mp hmem with hmem | hmem
    · exact hblank hmem
    · exact absurd (h w hw x hmem) (by simp [hx])
  · exact hblank (List.mem_singleton.mp hmem)

theorem padded_head (b : Byte) (s : Bytes) (h : padded words = b :: s) : isAlnum b = false := by
  cases words with
  | nil =>
    obtain ⟨rfl, _⟩ := List.cons.inj h
    decide
  | cons w words =>
    obtain ⟨rfl, _⟩ := List.cons.inj h
    decide

/-- The pass over the words hits the titles. -/
theorem plain_words (h : ∀ w ∈ words, Plain w) :
    gfind plainPattern (padded words) =
        (words.filter isValidTitle).map (fun w => [[ch ' '], w]) ∧
      ∀ g, gsub plainPattern g (padded words) =
        (words.flatMap fun w => if isValidTitle w then g [[ch ' '], w] else ch ' ' :: w) ++
          str " " := by
  have hscan : ∀ s, scan plainPattern s = scanFrom plainPattern.items 0 s := fun _ => rfl
  simp only [gfind, allMatches, gsub, replaceAll, hscan]
  induction words with
  | nil => 
    have hnil : scanFrom plainPattern.items 0 (padded []) = [.copy (ch ' ')] := by decide +kernel
    rw [hnil]
    exact ⟨rfl, fun _ => rfl⟩
  | cons w words ih =>
    have hw := h w (List.mem_cons_self ..)
    obtain ⟨hfind, hsub⟩ := ih fun x hx => h x (List.mem_cons_of_mem _ hx)
    have hcons : padded (w :: words) = ch ' ' :: (w ++ padded words) := by simp [padded]
    have hhead := @padded_head words
    rw [hcons]
    by_cases htitle : isValidTitle w = true
    · have hhit := matchHere_plain_word (isValidTitle_iff.mp htitle) hhead
      rw [scanFrom_hit hhit (by simp)]
      refine ⟨?_, fun g => ?_⟩
      · simp [Piece.hit?, htitle, hfind]
      · simp [htitle, hsub]
    · have hmiss := matchHere_plain_miss hw (fun hword => htitle (isValidTitle_iff.mpr hword)) hhead
      have hrun : ∀ b ∈ w, singleMatch b (.set false [.cls (ch 's'), .lit (ch '(')]) = false :=
        fun b hb => startsNoLink b (hw b hb)
      have hfirst : headSingle plainPattern.items =
          some (.set false [.cls (ch 's'), .lit (ch '(')]) := by decide
      rw [scanFrom_miss hmiss, scanFrom_run hfirst hrun]
      refine ⟨?_, fun g => ?_⟩
      · have hcopies : (w.map Piece.copy).filterMap Piece.hit? = [] := by
          rw [List.filterMap_map]
          exact List.filterMap_eq_nil_iff.mpr fun _ _ => rfl
        rw [List.filterMap_cons_none rfl, List.filterMap_append, hcopies, List.nil_append, hfind]
        simp [htitle]
      · simp [htitle, hsub, List.flatMap_map]

/-! ### Lines of words -/

/-- A line of words: letters and digits between single blanks, a letter first. -/
structure WordLine (words : List Bytes) : Prop where
  plain : ∀ w ∈ words, w ≠ [] ∧ Plain w ∧ ¬ str "nopTOKEN" <:+: w
  first : ∃ b u rest, words = (b :: u) :: rest ∧ isAlpha b = true

def wordLine (words : List Bytes) : Bytes := (str " ").intercalate words

theorem wordLine_padded (hne : words ≠ []) :
    str " " ++ wordLine words ++ str " " = padded words := by
  induction words with
  | nil => exact absurd rfl hne
  | cons w words ih =>
    by_cases hwords : words = []
    · subst hwords
      simp [wordLine, padded, show str " " = [ch ' '] by decide]
    · have hrest := ih hwords
      rw [wordLine, List.intercalate_cons_of_ne_nil hwords, padded, List.flatMap_cons]
      rw [wordLine, padded] at hrest
      rw [List.append_assoc, List.append_assoc, List.append_assoc, List.append_assoc, ← hrest]
      simp [show str " " = [ch ' '] by decide]

namespace WordLine

theorem ne_nil (h : WordLine words) : words ≠ [] := by
  obtain ⟨b, u, rest, rfl, _⟩ := h.first
  exact List.cons_ne_nil _ _

theorem not_mem (h : WordLine words) {x : Byte} (hx : isAlnum x = false) (hblank : x ≠ ch ' ') :
    x ∉ wordLine words := by
  intro hmem
  refine not_mem_padded (fun w hw => (h.plain w hw).2.1) hx hblank ?_
  rw [← wordLine_padded h.ne_nil]
  simp [hmem]

theorem no_nopTOKEN (h : WordLine words) : ¬ str "nopTOKEN" <:+: wordLine words := by
  have hwords := h.plain
  clear h
  induction words with
  | nil => decide
  | cons w words ih =>
    by_cases hnil : words = []
    · subst hnil
      simpa [wordLine] using (hwords w (List.mem_cons_self ..)).2.2
    · rw [wordLine, List.intercalate_cons_of_ne_nil hnil, List.append_assoc]
      intro hwithin
      rcases infix_split (by decide) hwithin with hw | hrest
      · exact (hwords w (List.mem_cons_self ..)).2.2 hw
      · exact ih (fun x hx => hwords x (List.mem_cons_of_mem _ hx)) hrest

theorem noBlock (h : WordLine words) : NoBlock (wordLine words) := by
  have hplus : ch '+' ∉ wordLine words := h.not_mem (by decide) (by decide)
  have hbar : bar ∉ wordLine words := h.not_mem (by decide) (by decide)
  obtain ⟨b, u, rest, rfl, hb⟩ := h.first
  have hline : wordLine ((b :: u) :: rest) = b :: wordLine (u :: rest) :=
    List.intercalate_cons_cons_left
  refine ⟨by simp [hline], fun d t hd => ?_, hplus, hbar⟩
  rw [hline] at hd
  obtain ⟨rfl, _⟩ := List.cons.inj hd
  have hspace : ∀ b, isAlpha b = true → isSpace b = false := by
    refine forall_byte ?_
    decide +kernel
  exact ⟨hspace _ hb, ne_of_test hb (by decide), ne_of_test hb (by decide)⟩

theorem styled (h : WordLine words) (cls : FormatterClass) (st : FormatterState) :
    (styledLine cls (wordLine words) st).1 = padded words ∧
      (styledLine cls (wordLine words) st).2.insideNoAutoLink = st.insideNoAutoLink := by
  have hno : ∀ x, isAlnum x = false → x ≠ ch ' ' → x ∉ wordLine words := fun x => h.not_mem
  have hl : entities (embeddedUrls cls (embeddedHtml (blockQuote (wordLine words)))) =
      wordLine words := by
    rw [blockQuote_plain (hno _ (by decide) (by decide)),
      embeddedHtml_plain (hno _ (by decide) (by decide)) (hno _ (by decide) (by decide))
        (hno _ (by decide) (by decide)) h.no_nopTOKEN,
      embeddedUrls_plain cls (hno _ (by decide) (by decide)),
      entities_plain (hno _ (by decide) (by decide)) (hno _ (by decide) (by decide))]
  obtain ⟨hline, types, elements, result, hst⟩ := h.noBlock.styled st hl
  have hpad : ∀ x, isAlnum x = false → x ≠ ch ' ' → x ∉ str " " ++ wordLine words ++ str " " := by
    intro x hx hblank
    simp [hno x hx hblank, show str " " = [ch ' '] by decide, hblank]
  rw [hline, hst, emphasis_plain (hpad _ (by decide) (by decide)) (hpad _ (by decide) (by decide))
    (hpad _ (by decide) (by decide)), wordLine_padded h.ne_nil]
  exact ⟨rfl, rfl⟩

end WordLine

/-- What a link looks like does not depend on the state. -/
theorem internalLink_fst (env : FormatterEnv) (topic : Bytes) (anchor text : Option Bytes)
    (st st' : FormatterState) :
    (internalLink env topic anchor text st).1 = (internalLink env topic anchor text st').1 := by
  have hwiki := (WikiFormatter.internalLink_eq env ⟨topic, anchor, text⟩ st).trans
    (WikiFormatter.internalLink_eq env ⟨topic, anchor, text⟩ st').symm
  simp only [internalLink]
  cases env.cls with
  | printable => rfl
  | wiki => exact hwiki
  | exporting => exact hwiki

/-- The words of a line with its links. -/
def linkedWords (env : FormatterEnv) (st : FormatterState) (words : List Bytes) : Bytes :=
  (words.flatMap fun w =>
    ch ' ' :: if isValidTitle w then (internalLink env w none none st).1 else w) ++ str " "

theorem linkedWords_state (env : FormatterEnv) (st st' : FormatterState) (words : List Bytes) :
    linkedWords env st words = linkedWords env st' words := by
  simp only [linkedWords, internalLink_fst env _ none none st st']

theorem autoLinks_words (env : FormatterEnv) (hplain : ∀ w ∈ words, Plain w)
    (hst : st.insideNoAutoLink = false) :
    autoCalls env (padded words) st =
        (words.filter isValidTitle).map (fun w => ⟨w, none, none⟩) ∧
      (autoLinks env (padded words) st).1 = linkedWords env st words := by
  have hhash : ch '#' ∉ padded words := not_mem_padded hplain (by decide) (by decide)
  have hmiss : anchoredPattern.Misses (padded words) := .of_needs (x := ch '#') (by decide) hhash
  obtain ⟨hfind, hsub⟩ := plain_words hplain
  rw [autoCalls, autoLinks_eq, hst]
  simp only [Bool.false_eq_true, ↓reduceIte, gsubState_misses hmiss, gfind_misses hmiss, hfind,
    List.map_nil, List.nil_append, List.map_map]
  refine ⟨rfl, ?_⟩
  have hlink : ∀ cs st', (autoLink env plainCall cs st').1 =
      cs.getD 0 [] ++ (internalLink env (cs.getD 1 []) none none st).1 :=
    fun cs st' => congrArg (cs.getD 0 [] ++ ·) (internalLink_fst ..)
  rw [gsubState_fst hlink, hsub, linkedWords]
  congr 2
  funext w
  split_ifs <;> rfl

theorem percent_linkedWords (h : ∀ w ∈ words, Plain w) :
    ch '%' ∉ linkedWords env st words := by
  intro hmem
  rcases List.mem_append.mp hmem with hmem | hmem
  · obtain ⟨w, hw, hmem⟩ := List.mem_flatMap.mp hmem
    rcases List.mem_cons.mp hmem with hmem | hmem
    · exact absurd hmem (by decide)
    · split_ifs at hmem
      · exact percent_internalLink (h w hw) (by simp) hmem
      · exact absurd (h w hw _ hmem) (by decide)
  · exact absurd hmem (by decide)

/-- The titles are the WikiWords; and of the words of a line those become links that are titles, in
order and each as a whole. -/
theorem titles_linked :
    (∀ t, isValidTitle t = true ↔ IsWikiWord t) ∧
      (∀ t, isValidTitle t = true → ∀ b ∈ t,
        b ≠ ch '/' ∧ b ≠ ch '\\' ∧ b ≠ ch '.' ∧ isSpace b = false) ∧
      ∀ (env : FormatterEnv) (st : FormatterState) (words : List Bytes), WordLine words →
        st.insideNoAutoLink = false →
        lineCalls env (wordLine words) st =
            (words.filter isValidTitle).map (fun w => ⟨w, none, none⟩) ∧
          (formatWikiLine env (wordLine words) st).1 = linkedWords env st words := by
  refine ⟨fun t => isValidTitle_iff, fun t ht b hb => ?_, fun env st words h hst => ?_⟩
  · have halnum := (isValidTitle_iff.mp ht).alnum b hb
    have hspace : ∀ b, isAlnum b = true → isSpace b = false := by
      refine forall_byte ?_
      decide +kernel
    exact ⟨ne_of_test halnum (by decide), ne_of_test halnum (by decide),
      ne_of_test halnum (by decide), hspace b halnum⟩
  · have hplain : ∀ w ∈ words, Plain w := fun w hw => (h.plain w hw).2.1
    obtain ⟨hline, hauto⟩ := h.styled env.cls st
    have hbracket : ch '[' ∉ padded words := not_mem_padded hplain (by decide) (by decide)
    have hmiss : (pat "%[%[([^%]]+)%]%[([^%]]+)%]%]").Misses (padded words) :=
      .of_needs (x := ch '[') (by decide) hbracket
    have hlinks := hauto.trans hst
    rw [lineCalls, formatWikiLine_styled]
    generalize styledLine env.cls (wordLine words) st = styled at hline hlinks
    obtain ⟨line, st'⟩ := styled
    obtain rfl : line = padded words := hline
    obtain ⟨hcalls, hlinked⟩ := autoLinks_words env hplain hlinks
    have hpercent : ch '%' ∉ linkedWords env st' words := percent_linkedWords hplain
    simp only [bracketCalls, gfind_misses hmiss, List.filterMap_nil, List.nil_append,
      hyperLinks_plain hbracket, hcalls, hlinked, percentVariables_plain hpercent]
    exact ⟨trivial, linkedWords_state ..⟩

theorem titles_linked_twoWords :
    let env : FormatterEnv := ⟨.wiki, fun _ => false, fun _ => true⟩
    lineCalls env (wordLine [str "see", str "FooBar"]) {} = [⟨str "FooBar", none, none⟩] := by
  intro env
  have hplain : ∀ w ∈ [str "see", str "FooBar"],
      w ≠ [] ∧ Plain w ∧ ¬ str "nopTOKEN" <:+: w := by
    unfold Plain
    decide +kernel
  have hline : WordLine [str "see", str "FooBar"] :=
    ⟨hplain, ch 's', str "ee", [str "FooBar"], by decide, by decide⟩
  have hfilter : [str "see", str "FooBar"].filter isValidTitle = [str "FooBar"] := by
    decide +kernel
  have hcalls := (titles_linked.2.2 env {} _ hline rfl).1
  rw [hfilter] at hcalls
  exact hcalls

end MoonWiki
