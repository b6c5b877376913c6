import MoonWiki.LineUrls
import MoonWiki.WordLinks

/-! The patterns of a line as templates: what their matches are, and what is put for them. -/
namespace MoonWiki
open Lua

variable {v : Bytes} {m : Match} {env : FormatterEnv}

/-! ### Styles -/

/-- The marks of a style, what may stand between them, and the tags put for them. -/
structure StyleRule where
  mark : Bytes
  body : List Item
  opening : Bytes
  closing : Bytes
  deriving DecidableEq

def solidItem : Single := .set true [.cls (ch 's')]

/-- Two bytes or more. -/
def longBody : List Item := [.single solidItem .one, .single .any .minus, .single solidItem .one]

/-- No blanks. -/
def solidBody : List Item := [.single solidItem .minus]

def closingItem : Item :=
  .single (.set false [.cls (ch 's'), .lit (ch ','), .lit (ch '.'), .lit (ch ';'), .lit (ch ':'),
    .lit (ch '!'), .lit (ch '?')]) .one

def styleRules : List StyleRule :=
  [⟨str "==", longBody, str "<TT><STRONG>", str "</STRONG></TT>"⟩,
    ⟨str "==", solidBody, str "<TT><STRONG>", str "</STRONG></TT>"⟩,
    ⟨str "__", longBody, str "<STRONG><EM>", str "</EM></STRONG>"⟩,
    ⟨str "__", solidBody, str "<STRONG><EM>", str "</EM></STRONG>"⟩,
    ⟨str "*", longBody, str "<STRONG>", str "</STRONG>"⟩,
    ⟨str "*", solidBody, str "<STRONG>", str "</STRONG>"⟩,
    ⟨str "_", longBody, str "<EM>", str "</EM>"⟩,
    ⟨str "_", solidBody, str "<EM>", str "</EM>"⟩,
    ⟨str "=", longBody, str "<TT>", str "</TT>"⟩,
    ⟨str "=", solidBody, str "<TT>", str "</TT>"⟩]

def StyleRule.segments (rule : StyleRule) : List Segment :=
  [.cap [wordItem], .lit rule.mark, .cap rule.body, .lit rule.mark, .cap [closingItem]]

theorem emphasisRules_eq :
    emphasisRules.map (fun rule => (rule.1.anchor, rule.1.items.map Item.reduce, rule.2)) =
      styleRules.map fun rule => (false, rule.segments.flatMap Segment.items,
        rule.opening ++ str "%2" ++ rule.closing) := by
  decide +kernel

theorem styleRules_simple : ∀ rule ∈ styleRules, ∀ seg ∈ rule.segments, seg.isSimple = true := by
  decide +kernel

theorem addS_around (m : Match) {opening closing : Bytes} (hopening : ch '%' ∉ opening)
    (hclosing : ch '%' ∉ closing) :
    addS m (str "%1" ++ (opening ++ str "%2" ++ closing) ++ str "%3") =
      m.captures.getD 0 [] ++ (opening ++ (m.captures.getD 1 [] ++ (closing ++
        m.captures.getD 2 []))) := by
  have hlast : ∀ {r : Bytes}, ch '%' ∉ r → r.getLast? ≠ some (ch '%') :=
    fun hr h => hr (List.mem_of_getLast? h)
  have hone : addS m (str "%1") = m.captures.getD 0 [] := addS_capture m
  have htwo : addS m (str "%2") = m.captures.getD 1 [] := by
    rw [show str "%2" = [37, 50] by decide]
    simp [addS, ch, isDigit]
  have hthree : addS m (str "%3") = m.captures.getD 2 [] := by
    rw [show str "%3" = [37, 51] by decide]
    simp [addS, ch, isDigit]
  have hsplit : str "%1" ++ (opening ++ str "%2" ++ closing) ++ str "%3" =
      str "%1" ++ (opening ++ (str "%2" ++ (closing ++ str "%3"))) := by simp
  rw [hsplit, addS_append m (by decide), addS_append m (hlast hopening),
    addS_append m (by decide), addS_append m (hlast hclosing), hone, htwo, hthree,
    addS_plain m hopening, addS_plain m hclosing]

/-- A match of a style: the byte before it, the marked text and the byte after it. -/
structure StyleMatch (rule : StyleRule) (m : Match) where
  before : Bytes
  body : Bytes
  after : Bytes
  whole : m.whole = before ++ (rule.mark ++ (body ++ (rule.mark ++ after)))
  captures : m.captures = [before, body, after]
  beforeBytes : ∀ b ∈ before, wordItem.takes b = true
  bodyBytes : ∀ b ∈ body, ∃ i ∈ rule.body, i.takes b
  afterBytes : ∀ b ∈ after, closingItem.takes b = true

theorem styleMatch {rule : Pattern × Bytes} (hrule : rule ∈ emphasisRules)
    (hm : matchHere rule.1.items v = some m) :
    ∃ r ∈ styleRules, rule.2 = r.opening ++ str "%2" ++ r.closing ∧ Nonempty (StyleMatch r m) := by
  have hmem : (rule.1.anchor, rule.1.items.map Item.reduce, rule.2) ∈
      emphasisRules.map (fun rule => (rule.1.anchor, rule.1.items.map Item.reduce, rule.2)) :=
    List.mem_map_of_mem hrule
  rw [emphasisRules_eq] at hmem
  obtain ⟨r, hr, heq⟩ := List.mem_map.mp hmem
  obtain ⟨_, heq⟩ := Prod.mk.inj heq
  obtain ⟨hitems, hrepl⟩ := Prod.mk.inj heq
  rw [← matchHere_reduce, ← hitems] at hm
  obtain ⟨ts, hfills, hts⟩ := matchHere_fills (styleRules_simple r hr) hm
  obtain ⟨before, w, us, hwhole, rfl, hbefore, x, rfl, body, y, us, rfl, rfl, hbody, z, rfl,
    after, w, us, rfl, rfl, hafter, rfl, rfl⟩ := hfills
  refine ⟨r, hr, hrepl.symm, ⟨before, body, after, ?_, hts (List.cons_ne_nil _ _), ?_, hbody, ?_⟩⟩
  · simpa using hwhole
  · simpa using hbefore
  · simpa using hafter

/-- What is put for the match. -/
theorem StyleMatch.text {rule : StyleRule} (hrule : rule ∈ styleRules) (style : StyleMatch rule m) :
    addS m (str "%1" ++ (rule.opening ++ str "%2" ++ rule.closing) ++ str "%3") =
      style.before ++ (rule.opening ++ (style.body ++ (rule.closing ++ style.after))) := by
  have hpercent : ∀ r ∈ styleRules, ch '%' ∉ r.opening ∧ ch '%' ∉ r.closing := by decide +kernel
  rw [addS_around m (hpercent rule hrule).1 (hpercent rule hrule).2, style.captures]
  rfl

/-! ### Automatic links -/

def wordSingles : List Item :=
  [.single (.cls (ch 'u')) .plus, .single (.cls (ch 'l')) .plus, .single (.cls (ch 'u')) .plus,
    .single (.set false [.cls (ch 'a'), .cls (ch 'd')]) .star]

def plainSegments : List Segment := [.cap [wordItem], .cap wordSingles]

def anchoredSegments : List Segment :=
  [.cap [wordItem], .cap wordSingles, .lit (str "#"), .cap wordSingles]

theorem plain_segments : plainPattern.items = plainSegments.flatMap Segment.items := by decide

theorem anchored_segments : anchoredPattern.items = anchoredSegments.flatMap Segment.items := by
  decide

theorem wordSingles_takes (b : Byte) (h : ∃ i ∈ wordSingles, i.takes b) : isAlnum b = true := by
  revert h
  revert b
  refine forall_byte ?_
  decide +kernel

/-- A match of `Topic` or of `Topic#Anchor`: the byte before it, and the names. -/
structure AutoMatch (m : Match) (anchored : Bool) where
  before : Bytes
  topic : Bytes
  anchor : Bytes
  whole : m.whole = before ++ (topic ++ if anchored then ch '#' :: anchor else [])
  captures : m.captures = before :: topic :: if anchored then [anchor] else []
  beforeBytes : ∀ b ∈ before, wordItem.takes b = true
  topicBytes : Plain topic
  anchorBytes : Plain anchor

theorem plainMatch (hm : matchHere plainPattern.items v = some m) :
    Nonempty (AutoMatch m false) := by
  rw [plain_segments] at hm
  obtain ⟨ts, hfills, hts⟩ := matchHere_fills (by decide) hm
  obtain ⟨before, w, us, hwhole, rfl, hbefore, topic, x, us, rfl, rfl, htopic, rfl, rfl⟩ := hfills
  exact ⟨⟨before, topic, [], by simpa using hwhole, hts (List.cons_ne_nil _ _),
    by simpa using hbefore, fun b hb => wordSingles_takes b (htopic b hb), by simp [Plain]⟩⟩

theorem anchoredMatch (hm : matchHere anchoredPattern.items v = some m) :
    Nonempty (AutoMatch m true) := by
  rw [anchored_segments] at hm
  obtain ⟨ts, hfills, hts⟩ := matchHere_fills (by decide) hm
  obtain ⟨before, w, us, hwhole, rfl, hbefore, topic, x, us, rfl, rfl, htopic, y, rfl, anchor, z,
    us, rfl, rfl, hanchor, rfl, rfl⟩ := hfills
  have hhash : str "#" = [ch '#'] := by decide
  exact ⟨⟨before, topic, anchor, by simpa [hhash] using hwhole, hts (List.cons_ne_nil _ _),
    by simpa using hbefore, fun b hb => wordSingles_takes b (htopic b hb),
    fun b hb => wordSingles_takes b (hanchor b hb)⟩⟩

/-- What is put for a match: the link does not depend on the state. -/
def autoText (env : FormatterEnv) (call : List Bytes → LinkCall) (cs : List Bytes) : Bytes :=
  cs.getD 0 [] ++ (internalLink env (call cs).topic (call cs).anchor (call cs).text {}).1

theorem autoLinks_fst (env : FormatterEnv) (line : Bytes) (st : FormatterState) :
    (autoLinks env line st).1 =
      if st.insideNoAutoLink then line
      else gsub plainPattern (autoText env plainCall)
        (gsub anchoredPattern (autoText env anchoredCall) line) := by
  have htext : ∀ (call : List Bytes → LinkCall) cs st,
      (autoLink env call cs st).1 = autoText env call cs := by
    intro call cs st
    exact congrArg (cs.getD 0 [] ++ ·) (internalLink_fst env _ _ _ st {})
  rw [autoLinks_eq]
  split_ifs
  · rfl
  · rw [gsubState_fst (htext plainCall), gsubState_fst (htext anchoredCall)]

/-! ### What is put for a match -/

/-- A link of `WikiFormatter` begins with a tag. -/
theorem internalLink_tag (hcls : env.cls = .wiki) (topic : Bytes) (anchor text : Option Bytes)
    (st : FormatterState) : ch '<' ∈ (internalLink env topic anchor text st).1 := by
  have hhtk : ∀ field attrs contain, ch '<' ∈ htk field attrs contain := by
    intro field attrs contain
    simp [htk, show ch '<' ∈ str "<" by decide]
  rw [internalLink, hcls]
  have heq := WikiFormatter.internalLink_eq env ⟨topic, anchor, text⟩ st
  dsimp only at heq ⊢
  rw [heq, hcls]
  cases LinkCall.target env ⟨topic, anchor, text⟩ with
  | special => exact hhtk _ _ _
  | existing t => exact hhtk _ _ _
  | missing => exact hhtk _ _ _

/-! ### Bytes that the steps keep -/

theorem count_le_htk (x : Byte) {field : String} {attrs : List (String × Bytes)}
    {contain : List Bytes} {t : Bytes} (h : t ∈ contain) :
    t.count x ≤ (htk field attrs contain).count x :=
  (infix_htk_of_mem h).sublist.count_le x

/-- A URL is put back as it is or as an element. -/
theorem processUrl_cases (cls : FormatterClass) (urlType address : Bytes) :
    processUrl cls urlType address = urlType ++ str ":" ++ address ∨
      processUrl cls urlType address =
        htk "A" [("href", urlType ++ str ":" ++ address)] [urlType ++ str ":" ++ address] := by
  cases cls with
  | printable => exact .inl rfl
  | wiki =>
    simp only [processUrl]
    split_ifs
    · exact .inr rfl
    · exact .inl rfl
  | exporting =>
    simp only [processUrl]
    split_ifs
    · exact .inr rfl
    · exact .inl rfl

theorem url_count_le (url : UrlMatch v m) (hm : matchHere urlItems v = some m)
    (cls : FormatterClass) (x : Byte) : m.whole.count x ≤ (urlText cls m).count x := by
  have haddress : (url.urlType ++ str ":" ++ (url.start ++ [url.last])).count x ≤
      (processUrl cls url.urlType (url.start ++ [url.last])).count x := by
    rcases processUrl_cases cls url.urlType (url.start ++ [url.last]) with h | h
    · rw [h]
    · rw [h]
      exact count_le_htk x (List.mem_singleton_self _)
  rw [url.text, url.whole hm]
  simp only [show str ":" = [ch ':'] by decide, List.append_assoc, List.singleton_append,
    List.count_append, List.count_cons, List.count_nil] at haddress ⊢
  omega

/-- A URL with a known scheme is put into an element. -/
theorem url_count_lt (url : UrlMatch v m) (hm : matchHere urlItems v = some m)
    (hknown : url.urlType ∈ urlTypes) :
    m.whole.count (ch '<') < (urlText .wiki m).count (ch '<') := by
  have hlink : (url.urlType ++ str ":" ++ (url.start ++ [url.last])).count (ch '<') <
      (processUrl .wiki url.urlType (url.start ++ [url.last])).count (ch '<') := by
    have hopen : (str "<").count (ch '<') = 1 := by decide
    simp only [processUrl, hknown, ↓reduceIte, htk, List.count_append, List.flatten_cons,
      List.flatten_nil, hopen]
    omega
  rw [url.text, url.whole hm]
  simp only [show str ":" = [ch ':'] by decide, List.append_assoc, List.singleton_append,
    List.count_append, List.count_cons, List.count_nil] at hlink ⊢
  omega

theorem embeddedUrls_count_le (cls : FormatterClass) (x : Byte) (line : Bytes) :
    line.count x ≤ (embeddedUrls cls line).count x := by
  have hcount := replaceAll_count (p := ⟨false, urlItems⟩) (f := urlText cls) (s := line) x 0
    fun v m _ hm => by
      obtain ⟨url⟩ := matchHere_url hm
      exact url_count_le url hm cls x
  rw [embeddedUrls_eq]
  omega

/-- A match of the URL pattern with a known scheme. -/
def linksUrl (line : Bytes) : Bool :=
  (gfind ⟨false, urlItems⟩ line).any fun c => urlTypes.contains (c.getD 1 [])

theorem embeddedUrls_count_lt {line : Bytes} (h : linksUrl line = true) :
    line.count (ch '<') < (embeddedUrls .wiki line).count (ch '<') := by
  obtain ⟨c, hc, hknown⟩ := List.any_eq_true.mp h
  obtain ⟨m, hmem, rfl⟩ := List.mem_map.mp hc
  obtain ⟨piece, hpiece, hhit⟩ := List.mem_filterMap.mp hmem
  cases piece with
  | copy b => cases hhit
  | hit m' =>
    obtain rfl := Option.some.inj hhit
    obtain ⟨v, _, hm⟩ := scan_hit hpiece
    obtain ⟨url⟩ := matchHere_url hm
    have htype : url.urlType ∈ urlTypes := by simpa [url.captures] using hknown
    rw [embeddedUrls_eq]
    refine replaceAll_count_lt (ch '<') (fun v m _ hm => ?_) hpiece (url_count_lt url hm htype)
    obtain ⟨url⟩ := matchHere_url hm
    exact url_count_le url hm .wiki (ch '<')

/-- Without a known scheme the line is left. -/
theorem embeddedUrls_unknown {line : Bytes} (h : linksUrl line = false) (cls : FormatterClass) :
    embeddedUrls cls line = line := by
  rw [embeddedUrls_eq]
  refine replaceAll_same fun m hpiece => ?_
  obtain ⟨v, _, hm⟩ := scan_hit hpiece
  obtain ⟨url⟩ := matchHere_url hm
  refine url.text_unknown hm cls fun hknown => ?_
  have hmem : m.captures ∈ gfind ⟨false, urlItems⟩ line :=
    List.mem_map_of_mem (List.mem_filterMap.mpr ⟨_, hpiece, rfl⟩)
  have hno := List.any_eq_false.mp h _ hmem
  simp [url.captures, hknown] at hno

theorem not_mem_embeddedUrls {x : Byte} (hx : x ∉ str "<A href=\":\"></A>") {line : Bytes}
    (hline : x ∉ line) (cls : FormatterClass) : x ∉ embeddedUrls cls line := by
  have hmarks : ∀ marks : Bytes, marks ⊆ str "<A href=\":\"></A>" → x ∉ marks :=
    fun marks hsub hmem => hx (hsub hmem)
  have hne : ∀ b ∈ line, b ≠ x := fun b hb h => hline (h ▸ hb)
  rw [embeddedUrls_eq]
  refine fun hmem => replaceAll_bytes hne (fun m _ hcaps => ?_) _ hmem rfl
  have hcap : ∀ i, x ∉ m.captures.getD i [] := by
    intro i hmem
    by_cases hi : i < m.captures.length
    · rw [List.getD_eq_getElem _ _ hi] at hmem
      exact hcaps _ (List.getElem_mem hi) x hmem rfl
    · rw [List.getD_eq_default _ _ (Nat.le_of_not_lt hi)] at hmem
      cases hmem
  have hurl : x ∉ m.captures.getD 1 [] ++ str ":" ++ m.captures.getD 2 [] := by
    simp only [List.mem_append, hcap, hmarks (str ":") (by decide), or_self, not_false_eq_true]
  have hlink : x ∉ htk "A" [("href", m.captures.getD 1 [] ++ str ":" ++ m.captures.getD 2 [])]
      [m.captures.getD 1 [] ++ str ":" ++ m.captures.getD 2 []] := by
    refine not_mem_htk (hmarks _ (by decide)) (hmarks _ (by decide)) (fun a ha => ?_) fun c hc => ?_
    · obtain rfl := List.mem_singleton.mp ha
      exact ⟨hmarks (str "href") (by decide), hurl⟩
    · obtain rfl := List.mem_singleton.mp hc
      exact hurl
  have hprocess : x ∉ processUrl cls (m.captures.getD 1 []) (m.captures.getD 2 []) := by
    rcases processUrl_cases cls (m.captures.getD 1 []) (m.captures.getD 2 []) with h | h
    · rw [h]
      exact hurl
    · rw [h]
      exact hlink
  have htext : x ∉ urlText cls m := by
    simp only [urlText, List.mem_append, hcap, hprocess, or_self, not_false_eq_true]
  exact fun b hb heq => htext (heq ▸ hb)

theorem style_anchor : ∀ rule ∈ emphasisRules, rule.1.anchor = false := by decide

/-- Each match of a style adds its opening tags. -/
theorem style_count {x : Byte} (hx : ∀ r ∈ styleRules, x ∉ r.mark) {k : Nat}
    (hk : ∀ r ∈ styleRules, k ≤ r.opening.count x) {rule : Pattern × Bytes}
    (hrule : rule ∈ emphasisRules) (line : Bytes) :
    line.count x + k * (gfind rule.1 line).length ≤
      (gsubStr rule.1 (str "%1" ++ rule.2 ++ str "%3") line).count x := by
  refine replaceAll_count x k fun v m _ hm => ?_
  obtain ⟨r, hr, hrepl, ⟨style⟩⟩ := styleMatch hrule hm
  have hopening := hk r hr
  rw [hrepl, style.text hr, style.whole]
  simp only [List.count_append, List.count_eq_zero.mpr (hx r hr)]
  omega

theorem emphasis_count_le {x : Byte} (hx : ∀ r ∈ styleRules, x ∉ r.mark) (line : Bytes) :
    line.count x ≤ (emphasis line).count x := by
  have hfold : ∀ (rules : List (Pattern × Bytes)) (line : Bytes),
      (∀ rule ∈ rules, rule ∈ emphasisRules) → line.count x ≤
        (rules.foldl (fun line rule => gsubStr rule.1 (str "%1" ++ rule.2 ++ str "%3") line)
          line).count x := by
    intro rules
    induction rules with
    | nil => exact fun _ _ => Nat.le_refl _
    | cons rule rules ih =>
      intro line hrules
      have hstep := style_count hx (k := 0) (fun _ _ => Nat.zero_le _)
        (hrules rule (List.mem_cons_self ..)) line
      have htail := ih (gsubStr rule.1 (str "%1" ++ rule.2 ++ str "%3") line)
        fun r hr => hrules r (List.mem_cons_of_mem _ hr)
      rw [List.foldl_cons]
      omega
  rw [emphasis_eq]
  exact hfold emphasisRules line fun _ h => h

/-- The first style that is found adds a tag, and none is lost. -/
theorem emphasis_count_lt {line : Bytes} (h : ∃ rule ∈ emphasisRules, found rule.1 line = true) :
    line.count (ch '<') < (emphasis line).count (ch '<') := by
  have hmarks : ∀ r ∈ styleRules, ch '<' ∉ r.mark := by decide +kernel
  have hopenings : ∀ r ∈ styleRules, 1 ≤ r.opening.count (ch '<') := by decide +kernel
  have hfold : ∀ (rules : List (Pattern × Bytes)) (line : Bytes),
      (∀ rule ∈ rules, rule ∈ emphasisRules) →
      line.count (ch '<') ≤
          (rules.foldl (fun line rule => gsubStr rule.1 (str "%1" ++ rule.2 ++ str "%3") line)
            line).count (ch '<') ∧
        ((∃ rule ∈ rules, found rule.1 line = true) → line.count (ch '<') <
          (rules.foldl (fun line rule => gsubStr rule.1 (str "%1" ++ rule.2 ++ str "%3") line)
            line).count (ch '<')) := by
    intro rules
    induction rules with
    | nil =>
      refine fun line _ => ⟨Nat.le_refl _, fun h => ?_⟩
      obtain ⟨_, hr, _⟩ := h
      exact absurd hr List.not_mem_nil
    | cons rule rules ih =>
      intro line hrules
      have hrule := hrules rule (List.mem_cons_self ..)
      have htail := ih (gsubStr rule.1 (str "%1" ++ rule.2 ++ str "%3") line)
        fun r hr => hrules r (List.mem_cons_of_mem _ hr)
      have hstep := style_count hmarks hopenings hrule line
      rw [List.foldl_cons]
      refine ⟨by have := htail.1; omega, fun h => ?_⟩
      obtain ⟨r, hr, hfound⟩ := h
      by_cases hmiss : rule.1.Misses line
      · rw [gsubStr, replaceAll_misses hmiss] at htail ⊢
        refine htail.2 ⟨r, (List.mem_cons.mp hr).resolve_left ?_, hfound⟩
        rintro rfl
        exact found_iff_not_misses.mp hfound hmiss
      · have hpattern : rule.1 = ⟨false, rule.1.items⟩ := by rw [← style_anchor rule hrule]
        rw [hpattern] at hmiss
        have hhits := List.length_pos_iff.mpr (gfind_ne_nil hmiss)
        rw [← hpattern] at hhits
        have hle := htail.1
        omega
  rw [emphasis_eq]
  exact (hfold emphasisRules line fun _ h => h).2 h

theorem emphasis_bytes {P : Byte → Prop} {line : Bytes}
    (hrules : ∀ rule ∈ emphasisRules, ∀ b ∈ plainBytes (str "%1" ++ rule.2 ++ str "%3"), P b)
    (hline : ∀ b ∈ line, P b) : ∀ b ∈ emphasis line, P b := by
  have hfold : ∀ (rules : List (Pattern × Bytes)) (line : Bytes),
      (∀ rule ∈ rules, rule ∈ emphasisRules) → (∀ b ∈ line, P b) →
      ∀ b ∈ rules.foldl (fun line rule => gsubStr rule.1 (str "%1" ++ rule.2 ++ str "%3") line)
        line, P b := by
    intro rules
    induction rules with
    | nil => exact fun _ _ h => h
    | cons rule rules ih =>
      intro line hmem h
      have hrule := hmem rule (List.mem_cons_self ..)
      exact ih _ (fun r hr => hmem r (List.mem_cons_of_mem _ hr))
        (gsubStr_bytes (style_anchor rule hrule) (hrules rule hrule) h)
  rw [emphasis_eq]
  exact hfold emphasisRules line (fun _ h => h) hline

/-! ### Automatic links and the bytes of the text -/

theorem autoLinks_count_le {x : Byte} (hplain : ∀ i ∈ plainPattern.items, i.takes x = false)
    (hanchored : ∀ i ∈ anchoredPattern.items, i.takes x = false) (line : Bytes)
    (st : FormatterState) : line.count x ≤ (autoLinks env line st).1.count x := by
  rw [autoLinks_fst]
  split_ifs
  · exact Nat.le_refl _
  · exact Nat.le_trans (replaceAll_count_le hanchored _ line) (replaceAll_count_le hplain _ _)

/-- An automatic link of `WikiFormatter` adds a tag. -/
theorem autoLinks_count_lt (hcls : env.cls = .wiki) {line : Bytes} {st : FormatterState}
    (hst : st.insideNoAutoLink = false) (h : found plainPattern line = true) :
    line.count (ch '<') < (autoLinks env line st).1.count (ch '<') := by
  have htakes : (∀ i ∈ plainPattern.items, i.takes (ch '<') = false) ∧
      ∀ i ∈ anchoredPattern.items, i.takes (ch '<') = false := by decide
  have hone : ∀ (p : Pattern) (call : List Bytes → LinkCall) (line : Bytes), p.anchor = false →
      (∀ i ∈ p.items, i.takes (ch '<') = false) → ¬ p.Misses line →
      line.count (ch '<') < (gsub p (autoText env call) line).count (ch '<') := by
    rintro ⟨anchor, is⟩ call line rfl hp hmiss
    have hcount := replaceAll_count (p := ⟨false, is⟩)
      (f := fun m => autoText env call m.captures) (s := line) (ch '<') 1 fun v m _ hm => by
        have hlink := internalLink_tag hcls (call m.captures).topic (call m.captures).anchor
          (call m.captures).text {}
        have hpos := List.count_pos_iff.mpr hlink
        rw [matchHere_count_zero hp hm, autoText, List.count_append]
        omega
    have hhits := List.length_pos_iff.mpr (gfind_ne_nil hmiss)
    rw [gsub]
    omega
  have hle := replaceAll_count_le (p := plainPattern) htakes.1
    (fun m => autoText env plainCall m.captures)
    (gsub anchoredPattern (autoText env anchoredCall) line)
  rw [autoLinks_fst, if_neg (by simp [hst])]
  by_cases hanchored : anchoredPattern.Misses line
  · have hsame : gsub anchoredPattern (autoText env anchoredCall) line = line :=
      replaceAll_misses hanchored _
    rw [hsame]
    exact hone plainPattern plainCall line rfl htakes.1 (found_iff_not_misses.mp h)
  · exact Nat.lt_of_lt_of_le (hone anchoredPattern anchoredCall line rfl htakes.2 hanchored) hle

theorem percent_autoLinks {line : Bytes} (h : ch '%' ∉ line) (st : FormatterState) :
    ch '%' ∉ (autoLinks env line st).1 := by
  have hbefore : ∀ before : Bytes, (∀ b ∈ before, wordItem.takes b = true) → ch '%' ∉ before :=
    fun before hbefore hmem => absurd (hbefore _ hmem) (by decide)
  have hplain : ∀ line, ch '%' ∉ line →
      ch '%' ∉ gsub plainPattern (autoText env plainCall) line := by
    intro line hline hmem
    rcases mem_replaceAll hmem with hmem | ⟨v, m, _, hm, hmem⟩
    · exact hline hmem
    · obtain ⟨auto⟩ := plainMatch hm
      rw [auto.captures] at hmem
      rcases List.mem_append.mp hmem with hmem | hmem
      · exact hbefore _ auto.beforeBytes hmem
      · exact percent_internalLink auto.topicBytes (by simp [plainCall]) hmem
  have hanchored : ch '%' ∉ gsub anchoredPattern (autoText env anchoredCall) line := by
    intro hmem
    rcases mem_replaceAll hmem with hmem | ⟨v, m, _, hm, hmem⟩
    · exact h hmem
    · obtain ⟨auto⟩ := anchoredMatch hm
      rw [auto.captures] at hmem
      rcases List.mem_append.mp hmem with hmem | hmem
      · exact hbefore _ auto.beforeBytes hmem
      · exact percent_internalLink auto.topicBytes
          (by simpa [anchoredCall] using auto.anchorBytes) hmem
  rw [autoLinks_fst]
  split_ifs
  · exact h
  · exact hplain _ hanchored

end MoonWiki
