import MoonWiki.EndOfPage
import MoonWiki.ListNesting
import MoonWiki.Lua.Tagged

/-! The tags of the wiki, and the steps of a line that leave no other tag. -/
namespace MoonWiki
open Lua

variable {cls : FormatterClass} {env : FormatterEnv} {s t line : Bytes} {m : Match}

/-! ### The tags of the wiki -/

/-- What follows the `<` of the tags of every formatter. -/
def lineTags : List Bytes :=
  ["nop>", "HR>", "P>", "BR>", "TABLE border=\"", "/TABLE>", "/table>", "TR>", "/TR>", "TD>",
    "TD colspan=\"", "/TD>", "TH>", "TH colspan=\"", "/TH>", "UL>", "/UL>", "OL>", "OL type=\"",
    "/OL>", "LI>", "/LI>", "A class=\"", "A name=\"", "/A>", "TT>", "/TT>", "STRONG>", "/STRONG>",
    "EM>", "/EM>", "PRE>", "/PRE>", "H1>", "/H1>", "H2>", "/H2>", "H3>", "/H3>", "H4>", "/H4>",
    "H5>", "/H5>", "H6>", "/H6>"].map str

/-- Plain URLs become links, except in the printable view; only the wiki itself offers to create
a page. -/
def pageTags : FormatterClass → List Bytes
  | .printable => lineTags
  | .exporting => lineTags ++ ["A href=\""].map str
  | .wiki => lineTags ++ (["A href=\""].map str ++
      ["SPAN class=\"", "/SPAN>", "FONT color=\"", "/FONT>", "SUP>", "/SUP>"].map str)

theorem lineTags_subset (cls : FormatterClass) : lineTags ⊆ pageTags cls := by
  cases cls with
  | printable => exact List.Subset.refl _
  | exporting => exact List.subset_append_left _ _
  | wiki => exact List.subset_append_left _ _

theorem pageTags_subset (cls : FormatterClass) : pageTags cls ⊆ pageTags .wiki := by
  cases cls with
  | printable => exact List.subset_append_left _ _
  | exporting =>
    intro w hw
    rcases List.mem_append.mp hw with hw | hw
    · exact List.mem_append_left _ hw
    · exact List.mem_append_right _ (List.mem_append_left _ hw)
  | wiki => exact List.Subset.refl _

theorem pageTags_bytes : ∀ w ∈ pageTags .wiki, (0 : Byte) ∉ w := by
  decide +kernel

/-- Every `<` opens a tag of the formatter. -/
abbrev WikiTags (cls : FormatterClass) (s : Bytes) : Prop := Tagged (ch '<') (pageTags cls) s

/-! ### The passes of a page -/

/-- The replacements by a text, in a line, in a link and at the end of the page. -/
def textPasses : List (Pattern × Bytes) :=
  [(pat "nopTOKEN", str "<nop>"), (pat "&(%w%w-);", transToken ++ str "%1;"),
    (pat "&#(%d+);", transToken ++ str "#%1;"), (pat "&", str "&amp;"), (pat "~$~", str "&"),
    (pat "^%-%-%-%-+", htk "HR" [] []), (pat "^%s*$", htk "P" [] []),
    (pat "^(#)(%u+%l+%u+[%a%d]*)", htk "A" [("name", str "%2")] []), (pat "^%s*", []),
    (pat "([*s%(])(%u+%l+)", str "%1<nop>%2"), (pat "ies$", str "y"), (pat "sses$", str "ss"),
    (pat "([Xx])es$", str "%1"), (pat "([A-Za-rt-z])s$", str "%1"),
    (pat "\n?<nop>\n$", [])] ++
      emphasisRules.map fun rule => (rule.1, str "%1" ++ rule.2 ++ str "%3")

theorem textPasses_keep : ∀ pass ∈ textPasses,
    pass.1.keepsTagged (ch '<') lineTags (pageTags .wiki) pass.2 = true := by
  decide +kernel

/-- The patterns whose matches are replaced by what a function makes of them. -/
def searches : List Pattern :=
  [pat "%[%[([^%]]+)%]%[([^%]]+)%]%]", pat "#(%u+%l+%u+[%a%d]*)", plainPattern, anchoredPattern,
    pat "%%(%S+)%%", pat "VERBATIM%((%d+)%)VERBATIM"]

/-- The patterns of the parts of a line. -/
def cuts : List Pattern :=
  [pat "^(%-%-%-%++ )(.*)$", pat "^%s*(|.*|)%s*$", pat "^%s*%*(.*)%*%s*$", pat "([^|]+)(|+)"]

theorem searches_avoid : ∀ p ∈ searches,
    0 < minLength p.items ∧ avoids (pageTags .wiki) p.items = true := by
  decide +kernel

theorem searches_cut : ∀ p ∈ searches ++ cuts,
    cutsWhole (ch '<') (pageTags .wiki) none p.items = true ∧ .startCapture ∈ p.items := by
  decide +kernel

theorem WikiTags.pass {p : Pattern} {repl : Bytes} (hp : (p, repl) ∈ textPasses)
    (h : WikiTags cls s) : WikiTags cls (Lua.gsubStr p repl s) :=
  h.gsubStr (textPasses_keep _ hp) (lineTags_subset cls) (pageTags_subset cls)

theorem WikiTags.search {p : Pattern} {f : Match → Bytes} (hp : p ∈ searches)
    (hf : ∀ v m, matchHere p.items v = some m → WikiTags cls v → WikiTags cls (f m))
    (h : WikiTags cls s) : WikiTags cls (replaceAll p f s) := by
  obtain ⟨hmin, havoids⟩ := searches_avoid p hp
  exact h.replaceAll (.inr ⟨hmin, avoids_mono havoids (pageTags_subset cls)⟩) hf

theorem cutsWhole_pageTags {p : Pattern} (hp : p ∈ searches ++ cuts) :
    cutsWhole (ch '<') (pageTags cls) none p.items = true :=
  cutsWhole_mono (searches_cut p hp).1 (pageTags_subset cls)

theorem WikiTags.captured {p : Pattern} (hp : p ∈ searches ++ cuts) (h : WikiTags cls s)
    (hm : matchHere p.items s = some m) : ∀ t ∈ m.captures, WikiTags cls t :=
  matchHere_tagged (cutsWhole_pageTags hp) (searches_cut p hp).2 h hm

theorem WikiTags.capture {p : Pattern} (hp : p ∈ searches ++ cuts) (h : WikiTags cls s)
    (hm : matchHere p.items s = some m) (i : Nat) : WikiTags cls (m.captures.getD i []) := by
  rw [List.getD_eq_getElem?_getD]
  cases hget : m.captures[i]? with
  | none => exact .of_not_mem List.not_mem_nil
  | some t => exact WikiTags.captured hp h hm t (List.mem_of_getElem? hget)

/-- What a C function sees of an argument stops where no tag goes on. -/
theorem WikiTags.formatS (h : WikiTags cls s) : WikiTags cls (formatS s) := by
  rw [MoonWiki.formatS]
  split
  · exact h
  · by_cases hzero : (0 : Byte) ∈ s
    · obtain ⟨r, hr⟩ := cString_zero hzero
      rw [hr] at h
      apply h.cut
      intro w hw b hb hbr
      cases b with
      | nil => rfl
      | cons c b =>
        obtain ⟨rfl, -⟩ := List.cons_prefix_cons.mp hbr
        exact absurd (hb.subset (List.mem_cons_self ..))
          (pageTags_bytes w (pageTags_subset cls hw))
    · rw [cString_eq_self]
      · exact h
      · rintro b hb rfl
        exact hzero hb

/-! ### The elements -/

/-- What stands behind the `<` of an element with these attributes. -/
def openTag (field : String) : List String → Bytes
  | [] => str field ++ str ">"
  | name :: _ => str field ++ (str " " ++ formatS (str name) ++ str "=\"")

theorem openTag_prefix (field : String) (attrs : List (String × Bytes)) (z : Bytes) :
    openTag field (attrs.map Prod.fst) <+:
      str field ++ (attrs.flatMap (fun a => attr a.1 a.2) ++ (str ">" ++ z)) := by
  cases attrs with
  | nil => exact ⟨z, by simp [openTag]⟩
  | cons a attrs =>
    refine ⟨formatS a.2 ++ str "\"" ++ (attrs.flatMap (fun a => attr a.1 a.2) ++
      (str ">" ++ z)), ?_⟩
    simp [openTag, attr]

/-- The elements that hold text of the page, with the names of their attributes. -/
def lineElements : List (String × List String) :=
  [("A", ["class", "href"]), ("TR", []), ("TD", []), ("TD", ["colspan"]), ("TH", []),
    ("TH", ["colspan"]), ("PRE", [])]

def pageElements : FormatterClass → List (String × List String)
  | .printable => lineElements
  | .exporting => lineElements ++ [("A", ["href"])]
  | .wiki => lineElements ++
      [("A", ["href"]), ("SPAN", ["class", "style"]), ("FONT", ["color"]), ("SUP", [])]

theorem pageElements_tags (cls : FormatterClass) : ∀ e ∈ pageElements cls,
    openTag e.1 e.2 ∈ pageTags cls ∧ str "/" ++ str e.1 ++ str ">" ∈ pageTags cls ∧
      ch '<' ∉ str e.1 ∧ ∀ name ∈ e.2, ch '<' ∉ formatS (str name) := by
  cases cls <;> decide +kernel

theorem htk_wikiTags {field : String} {attrs : List (String × Bytes)} {contain : List Bytes}
    (helement : (field, attrs.map Prod.fst) ∈ pageElements cls)
    (hattrs : ∀ a ∈ attrs, WikiTags cls a.2) (hcontain : ∀ t ∈ contain, WikiTags cls t) :
    WikiTags cls (htk field attrs contain) := by
  obtain ⟨hopen, hclose, hfield, hnames⟩ := pageElements_tags cls _ helement
  dsimp only at hopen hclose hfield hnames
  have hname : WikiTags cls (str field) := .of_not_mem hfield
  have hgt : WikiTags cls (str ">") := .of_not_mem (by decide)
  have hlist : WikiTags cls (attrs.flatMap fun a => attr a.1 a.2) := by
    clear hopen helement
    induction attrs with
    | nil => exact .of_not_mem List.not_mem_nil
    | cons a attrs ih =>
      have hname := hnames a.1 (List.mem_cons_self ..)
      have hvalue := hattrs a (List.mem_cons_self ..)
      have hattr : WikiTags cls (attr a.1 a.2) := by
        have hblank : WikiTags cls (str " ") := .of_not_mem (by decide)
        have hequal : WikiTags cls (str "=\"") := .of_not_mem (by decide)
        have hquote : WikiTags cls (str "\"") := .of_not_mem (by decide)
        exact (((hblank.append (.of_not_mem hname)).append hequal).append hvalue.formatS).append
          hquote
      exact hattr.append (ih (fun b hb => hattrs b (List.mem_cons_of_mem _ hb))
        fun name hmem => hnames name (List.mem_cons_of_mem _ hmem))
  have hbody : WikiTags cls contain.flatten := by
    clear hopen
    induction contain with
    | nil => exact .of_not_mem List.not_mem_nil
    | cons t contain ih =>
      exact (hcontain t (List.mem_cons_self ..)).append
        (ih fun u hu => hcontain u (List.mem_cons_of_mem _ hu))
  have hend : WikiTags cls
      (if contain ≠ [] ∨ field ∉ emptyTags then str "</" ++ str field ++ str ">" else []) := by
    split
    · refine tagged_cons.mpr ⟨fun _ => ⟨_, hclose, List.prefix_refl _⟩, ?_⟩
      exact (Tagged.of_not_mem (by decide) : WikiTags cls (str "/")).append (hname.append hgt)
    · exact .of_not_mem List.not_mem_nil
  rw [htk_eq]
  simp only [List.append_assoc]
  refine tagged_cons.mpr ⟨fun _ => ⟨_, hopen, openTag_prefix field attrs _⟩, ?_⟩
  exact hname.append (hlist.append (hgt.append (hbody.append hend)))

/-! ### Links -/

theorem link_wikiTags (hs : WikiTags cls s) (ht : WikiTags cls t) :
    WikiTags cls (htk "A" [("class", str "twikiLink"), ("href", s)] [t]) := by
  have hclass : WikiTags cls (str "twikiLink") := .of_not_mem (by decide)
  apply htk_wikiTags
  · cases cls <;> exact List.mem_cons_self ..
  · simp only [List.forall_mem_cons, List.not_mem_nil, false_implies, implies_true, and_true]
    exact ⟨hclass, hs⟩
  · intro u hu
    obtain rfl := List.mem_singleton.mp hu
    exact ht

theorem existentPageLink_wikiTags (hs : WikiTags cls s) (ht : WikiTags cls t) :
    WikiTags cls (existentPageLink cls s t) := by
  have hsuffix : WikiTags cls (s ++ serverConfig.exportSuffix) :=
    hs.append (.of_not_mem (by decide))
  cases cls with
  | exporting => exact link_wikiTags hsuffix ht
  | wiki => exact link_wikiTags hs ht
  | printable => exact link_wikiTags hs ht

theorem nonExistentPageLink_wikiTags (hcls : cls ≠ .printable) (hs : WikiTags cls s)
    (ht : WikiTags cls t) : WikiTags cls (nonExistentPageLink cls s t) := by
  cases cls with
  | exporting => exact ht
  | printable => exact absurd rfl hcls
  | wiki =>
    have hplain : ∀ u : Bytes, ch '<' ∉ u → WikiTags .wiki u := fun u hu => .of_not_mem hu
    have hone : ∀ {a : String} {u v : Bytes} {field : String},
        (field, [a]) ∈ pageElements .wiki → WikiTags .wiki u → WikiTags .wiki v →
          WikiTags .wiki (htk field [(a, u)] [v]) := by
      intro a u v field hfield hu hv
      apply htk_wikiTags hfield
      · intro b hb
        obtain rfl := List.mem_singleton.mp hb
        exact hu
      · intro w hw
        obtain rfl := List.mem_singleton.mp hw
        exact hv
    have hmark : WikiTags .wiki (htk "SUP" [] [str "?"]) := by
      apply htk_wikiTags (by simp [pageElements]) (fun a ha => absurd ha List.not_mem_nil)
      intro u hu
      obtain rfl := List.mem_singleton.mp hu
      exact hplain _ (by decide)
    have htext : WikiTags .wiki (htk "FONT" [("color", str "#0000FF")] [t]) :=
      hone (by simp [pageElements]) (hplain _ (by decide)) ht
    have hedit : WikiTags .wiki (htk "A" [("href", str "EditPage?page=" ++ s)]
        [htk "SUP" [] [str "?"]]) :=
      hone (by simp [pageElements]) ((hplain _ (by decide)).append hs) hmark
    apply htk_wikiTags (by simp [pageElements])
    · simp only [List.forall_mem_cons, List.not_mem_nil, false_implies, implies_true, and_true]
      exact ⟨hplain _ (by decide), hplain _ (by decide)⟩
    · simp only [List.forall_mem_cons, List.not_mem_nil, false_implies, implies_true, and_true]
      exact ⟨htext, hedit⟩

theorem singular_wikiTags (h : WikiTags cls s) : WikiTags cls (singular s) := by
  have hies : WikiTags cls (gsubStr (pat "ies$") (str "y") s) := h.pass (by simp [textPasses])
  have hsses : WikiTags cls (gsubStr (pat "sses$") (str "ss") _) := hies.pass (by simp [textPasses])
  have hxes : WikiTags cls (gsubStr (pat "([Xx])es$") (str "%1") _) :=
    hsses.pass (by simp [textPasses])
  exact hxes.pass (by simp [textPasses])

theorem existingTopic_wikiTags (h : WikiTags cls s) (ht : existingTopic env s = some t) :
    WikiTags cls t := by
  rw [existingTopic] at ht
  split at ht
  · obtain rfl := Option.some.inj ht
    exact h
  · split at ht
    · obtain rfl := Option.some.inj ht
      exact singular_wikiTags h
    · cases ht

theorem target_existingTopic {call : LinkCall} (h : call.target env = .existing t) :
    existingTopic env call.topic = some t := by
  rw [LinkCall.target] at h
  split at h
  · cases h
  · cases htopic : existingTopic env call.topic with
    | none =>
      rw [htopic] at h
      cases h
    | some u =>
      rw [htopic] at h
      cases h
      rfl

theorem internalLink_wikiTags {topic : Bytes} {anchor text : Option Bytes}
    (htopic : WikiTags env.cls topic) (hanchor : ∀ a ∈ anchor, WikiTags env.cls a)
    (htext : ∀ t ∈ text, WikiTags env.cls t) (st : FormatterState) :
    WikiTags env.cls (internalLink env topic anchor text st).1 := by
  have hanchored : ∀ s, WikiTags env.cls s →
      WikiTags env.cls (LinkCall.withAnchor ⟨topic, anchor, text⟩ s) := by
    intro s hs
    cases anchor with
    | none => exact hs
    | some a => exact (hs.append (.of_not_mem (by decide))).append (hanchor a rfl)
  have hor : ∀ s, WikiTags env.cls s → WikiTags env.cls (text.getD s) := by
    intro s hs
    cases text with
    | none => exact hs
    | some t => exact htext t rfl
  by_cases hcls : env.cls = .printable
  · rw [internalLink, hcls]
    rw [hcls] at hor htopic
    exact hor topic htopic
  · have hinternal : internalLink env topic anchor text st =
        WikiFormatter.internalLink env topic anchor text st := by
      rw [internalLink]
      split
      · rename_i h
        exact absurd h hcls
      · rfl
    rw [hinternal, WikiFormatter.internalLink_eq env ⟨topic, anchor, text⟩ st]
    split
    · exact link_wikiTags htopic htopic
    · rename_i t htarget
      have ht := existingTopic_wikiTags htopic (target_existingTopic htarget)
      exact existentPageLink_wikiTags (hanchored t ht) (hor _ (hanchored topic htopic))
    · exact nonExistentPageLink_wikiTags hcls htopic (hor topic htopic)

theorem blanks_avoid : avoids (pageTags .wiki) (pat "%s*$").items = true := by
  decide +kernel

/-- `[[link][text]]` -/
theorem specificLink_wikiTags (hs : WikiTags env.cls s) (ht : WikiTags env.cls t)
    (st : FormatterState) : WikiTags env.cls (specificLink env s t st).1 := by
  have hblanks : pat "%s*$" = ⟨false, [.single (.cls (ch 's')) .star] ++ [.eos]⟩ := by decide
  have hhead : WikiTags env.cls (gsubStr (pat "^%s*") [] s) := hs.pass (by simp [textPasses])
  have hlink : WikiTags env.cls (gsubStr (pat "%s*$") [] (gsubStr (pat "^%s*") [] s)) := by
    have havoids := avoids_mono blanks_avoid (pageTags_subset env.cls)
    rw [hblanks] at havoids ⊢
    exact hhead.trim havoids
  rw [specificLink]
  dsimp only
  generalize gsubStr (pat "%s*$") [] (gsubStr (pat "^%s*") [] s) = link at hlink ⊢
  split
  · exact link_wikiTags hlink (ht.pass (by simp [textPasses]))
  · apply internalLink_wikiTags
    · apply hlink.search (by simp [searches])
      intro v m _ _
      exact .of_not_mem List.not_mem_nil
    · intro a ha
      obtain ⟨cs, hcs, ha⟩ := Option.bind_eq_some_iff.mp ha
      have hp : pat "#(%u+%l+%u+[%a%d]*)" ∈ searches ++ cuts := by simp [searches]
      exact gfind_tagged (cutsWhole_pageTags hp) (searches_cut _ hp).2 hlink cs
        (List.mem_of_getLast? hcs) a (List.mem_of_head? ha)
    · intro u hu
      obtain rfl := Option.some.inj hu
      exact ht

theorem hyperLinks_wikiTags (h : WikiTags env.cls line) (st : FormatterState) :
    WikiTags env.cls (hyperLinks env line st).1 := by
  have htext : ∀ c st, (specificLink env (List.getD c 0 []) (List.getD c 1 []) st).1 =
      (specificLink env (List.getD c 0 []) (List.getD c 1 []) {}).1 := by
    intro c st
    rw [specificLink, specificLink]
    dsimp only
    split
    · rfl
    · exact internalLink_fst env _ _ _ st {}
  rw [hyperLinks, gsubState_fst htext, gsub]
  apply h.search (by simp [searches])
  intro v m hm hv
  have hcapture := WikiTags.capture (by simp [searches]) hv hm
  exact specificLink_wikiTags (hcapture 0) (hcapture 1) {}

/-- `Topic` and `Topic#Anchor`. -/
theorem autoText_wikiTags {p : Pattern} {call : List Bytes → LinkCall} (hp : p ∈ searches)
    (hcall : call = plainCall ∨ call = anchoredCall) (h : WikiTags env.cls line) :
    WikiTags env.cls (gsub p (autoText env call) line) := by
  apply h.search hp
  intro v m hm hv
  have hcapture := WikiTags.capture (List.mem_append_left _ hp) hv hm
  rw [autoText]
  apply (hcapture 0).append
  rcases hcall with rfl | rfl
  · apply internalLink_wikiTags (hcapture 1)
    · intro a ha
      cases ha
    · intro t ht
      cases ht
  · apply internalLink_wikiTags (hcapture 1)
    · intro a ha
      exact WikiTags.captured (List.mem_append_left _ hp) hv hm a (List.mem_of_getElem? ha)
    · intro t ht
      cases ht

theorem autoLinks_wikiTags (h : WikiTags env.cls line) (st : FormatterState) :
    WikiTags env.cls (autoLinks env line st).1 := by
  rw [autoLinks_fst]
  split
  · exact h
  · apply autoText_wikiTags (by simp [searches]) (.inl rfl)
    exact autoText_wikiTags (by simp [searches]) (.inr rfl) h

/-! ### URLs and headings -/

theorem processUrl_wikiTags {urlType address : Bytes} (htype : ch '<' ∉ urlType)
    (haddress : ch '<' ∉ address) : WikiTags cls (processUrl cls urlType address) := by
  have hcolon : ch '<' ∉ str ":" := by decide
  have hurl : WikiTags cls (urlType ++ str ":" ++ address) := by
    apply Tagged.of_not_mem
    intro hmem
    rcases List.mem_append.mp hmem with hmem | hmem
    · exact (List.mem_append.mp hmem).elim htype hcolon
    · exact haddress hmem
  have hlink : ("A", ["href"]) ∈ pageElements cls → WikiTags cls
      (htk "A" [("href", urlType ++ str ":" ++ address)] [urlType ++ str ":" ++ address]) := by
    intro hfield
    apply htk_wikiTags hfield
    · intro a ha
      obtain rfl := List.mem_singleton.mp ha
      exact hurl
    · intro t ht
      obtain rfl := List.mem_singleton.mp ht
      exact hurl
  cases cls with
  | printable => exact hurl
  | wiki =>
    rcases processUrl_cases .wiki urlType address with htext | htext
    · rw [htext]
      exact hurl
    · rw [htext]
      exact hlink (by simp [pageElements])
  | exporting =>
    rcases processUrl_cases .exporting urlType address with htext | htext
    · rw [htext]
      exact hurl
    · rw [htext]
      exact hlink (by simp [pageElements])

/-- A URL takes the last byte of a tag at most, and gives it back. -/
theorem url_start : ∀ w ∈ pageTags .wiki, mayStart urlItems (ch '<' :: w) = false ∧
    ∀ b ∈ w.tails, 2 ≤ b.length → mayStart urlItems b = false := by
  decide +kernel

theorem embeddedUrls_wikiTags (h : WikiTags cls line) : WikiTags cls (embeddedUrls cls line) := by
  rw [embeddedUrls_eq]
  refine (replaceAll_tagged (by decide) ?_ h).1
  intro v m hm hv y hy hkeeps
  obtain ⟨url⟩ := matchHere_url hm
  obtain ⟨r, hr, -⟩ := Option.map_eq_some_iff.mp hm
  have htext : urlText cls m ++ y = url.charBefore ::
      (processUrl cls url.urlType (url.start ++ [url.last]) ++ url.charAfter :: y) := by
    rw [urlText, url.captures]
    simp
  rw [htext]
  constructor
  · have hsubject := url.subject ▸ hv
    refine tagged_cons.mpr ⟨?_, Tagged.append ?_ (tagged_cons.mpr ⟨?_, hy⟩)⟩
    · intro hlt
      obtain ⟨w, hw, hwv⟩ := (tagged_cons.mp hsubject).1 hlt
      have hprefix : ch '<' :: w <+: v := by
        rw [url.subject, hlt]
        exact List.cons_prefix_cons.mpr ⟨rfl, hwv⟩
      obtain ⟨z, rfl⟩ := hprefix
      have hstart := mayStart_of_doMatch hr
      rw [(url_start w (pageTags_subset cls hw)).1] at hstart
      cases hstart
    · apply processUrl_wikiTags
      · intro hlt
        exact absurd (url.typeBytes.2 _ hlt) (by decide)
      · intro hlt
        rcases List.mem_append.mp hlt with hlt | hlt
        · exact absurd (url.startBytes.2 _ hlt) (by decide)
        · have hlast := url.lastByte
          rw [← List.mem_singleton.mp hlt] at hlast
          exact absurd hlast (by decide)
    · intro hlt
      have hafter : url.charAfter :: m.after <:+ v :=
        ⟨url.charBefore :: (url.urlType ++ ch ':' :: (url.start ++ [url.last])),
          Eq.trans (by simp) url.subject.symm⟩
      obtain ⟨w, hw, hwafter⟩ := (tagged_cons.mp (hv.of_suffix hafter)).1 hlt
      exact ⟨w, hw, hkeeps w hw w (List.suffix_refl w) hwafter⟩
  · intro w hw b hb hbv
    cases b with
    | nil => exact List.nil_prefix
    | cons c b =>
      cases b with
      | nil =>
        rw [url.subject] at hbv
        exact List.cons_prefix_cons.mpr ⟨(List.cons_prefix_cons.mp hbv).1, List.nil_prefix⟩
      | cons d b =>
        obtain ⟨z, rfl⟩ := hbv
        have hstart := mayStart_of_doMatch hr
        have hfalse := (url_start w (pageTags_subset cls hw)).2 (c :: d :: b)
          ((List.mem_tails _ _).mpr hb)
        rw [hfalse (by rw [List.length_cons, List.length_cons]; omega)] at hstart
        cases hstart

theorem entities_wikiTags (h : WikiTags cls line) : WikiTags cls (entities line) := by
  have hnamed : WikiTags cls (gsubStr (pat "&(%w%w-);") (transToken ++ str "%1;") line) :=
    h.pass (by simp [textPasses])
  have hnumber : WikiTags cls (gsubStr (pat "&#(%d+);") (transToken ++ str "#%1;") _) :=
    hnamed.pass (by simp [textPasses])
  have halone : WikiTags cls (gsubStr (pat "&") (str "&amp;") _) :=
    hnumber.pass (by simp [textPasses])
  exact halone.pass (by simp [textPasses])

/-- A heading has a level. -/
theorem heading_length {v : Bytes} (h : matchHere (pat "^(%-%-%-%++ )(.*)$").items v = some m) :
    5 ≤ (m.captures.getD 0 []).length := by
  rw [heading_pattern] at h
  obtain ⟨⟨r, c⟩, hm, rfl⟩ := Option.map_eq_some_iff.mp h
  rw [doMatch] at hm
  obtain ⟨b₁, v₁, rfl, -, hm⟩ := doMatch_one_sound hm
  obtain ⟨b₂, v₂, rfl, -, hm⟩ := doMatch_one_sound hm
  obtain ⟨b₃, v₃, rfl, -, hm⟩ := doMatch_one_sound hm
  obtain ⟨plus, v₄, rfl, hplus, -, hm⟩ := doMatch_plus_sound hm
  obtain ⟨b₄, v₅, rfl, -, hm⟩ := doMatch_one_sound hm
  have hsplit : b₁ :: b₂ :: b₃ :: (plus ++ b₄ :: v₅) =
      (b₁ :: b₂ :: b₃ :: (plus ++ [b₄])) ++ v₅ := by simp
  rw [hsplit, doMatch_endCapture] at hm
  have hsingle : ∀ i ∈ [Item.single .any .star], i.isSingle = true := by decide
  obtain ⟨rest, v₆, -, -, hend⟩ := doMatch_capture_sound hsingle hm
  rw [doMatch] at hend
  split at hend
  · obtain ⟨-, rfl⟩ := Prod.mk.inj (Option.some.inj hend)
    have hplus := List.length_pos_iff.mpr hplus
    simp [pushCaptures]
    omega
  · cases hend

theorem decimal_level {level : Nat} (hpos : 0 < level) (hlevel : level ≤ 6) :
    decimal level = [UInt8.ofNat (48 + level)] := by
  interval_cases level <;> rfl

theorem heading_tags : ∀ level < 7, 0 < level →
    Tagged (ch '<') lineTags (str "<H" ++ [UInt8.ofNat (48 + level)] ++ str ">") ∧
      Tagged (ch '<') lineTags (str "</H" ++ [UInt8.ofNat (48 + level)] ++ str ">") := by
  decide +kernel

theorem headings_wikiTags (h : WikiTags cls line) : WikiTags cls (headings line) := by
  rw [headings, gsub]
  apply h.replaceAll (.inl rfl)
  intro v m hm hv
  have hcapture := WikiTags.capture (by simp [cuts]) hv hm
  have hlength := heading_length hm
  dsimp only
  split
  · rename_i hlevel
    have hpos : 0 < (m.captures.getD 0 []).length - 4 := by omega
    obtain ⟨hopen, hclose⟩ := heading_tags _ (by omega) hpos
    rw [← decimal_level hpos hlevel] at hopen hclose
    have htext := (hopen.mono (lineTags_subset cls)).append
      ((hcapture 1).append (hclose.mono (lineTags_subset cls)))
    simpa only [List.append_assoc] using htext
  · exact (hcapture 0).append (hcapture 1)

/-! ### Lines without tags of their own -/

/-- A line of a text without tags; the mark for the end of the page may stand behind it. -/
def MarkLine (line : Bytes) : Prop :=
  ∃ w, (∀ x ∈ str "<>~", x ∉ w) ∧ (line = w ∨ line = w ++ str "<nop>")

theorem MarkLine.tagged (h : MarkLine line) : Tagged (ch '<') [str "nop>"] line := by
  obtain ⟨w, hw, rfl | rfl⟩ := h
  · exact .of_not_mem (hw (ch '<') (by decide))
  · exact (Tagged.of_not_mem (hw (ch '<') (by decide))).append (by decide)

theorem MarkLine.blockQuote (h : MarkLine line) : blockQuote line = line := by
  obtain ⟨w, hw, hline⟩ := h
  have hgt := hw (ch '>') (by decide)
  have hmiss : (pat "^>(.*)$").Misses line := by
    apply Pattern.Misses.of_head rfl (c := .lit (ch '>')) (by decide)
    intro b t hbt
    have hb : b ≠ ch '>' := by
      rintro rfl
      rcases hline with rfl | rfl
      · exact hgt (hbt ▸ List.mem_cons_self ..)
      · cases w with
        | nil => cases hbt
        | cons c w =>
          obtain ⟨rfl, -⟩ := List.cons.inj hbt
          exact hgt (List.mem_cons_self ..)
    exact beq_false_of_ne hb.symm
  exact replaceAll_misses hmiss _

/-- The mark is kept as its token while tags are taken out. -/
theorem embeddedHtml_mark {w : Bytes} (hw : ∀ x ∈ str "<>~", x ∉ w) :
    embeddedHtml (w ++ str "<nop>") = embeddedHtml (w ++ str "nopTOKEN") := by
  have hlt := hw (ch '<') (by decide)
  have hgt := hw (ch '>') (by decide)
  have htagged : Tagged (ch '<') [str "nop>"] (w ++ str "<nop>") :=
    MarkLine.tagged ⟨w, hw, .inr rfl⟩
  have hno : ∀ x ∈ str "<>", x ∉ w ++ str "nopTOKEN" := by
    intro x hx hmem
    have htoken : ∀ x ∈ str "<>", x ∉ str "nopTOKEN" := by decide
    have hall : ∀ x ∈ str "<>", x ∈ str "<>~" := by decide
    rcases List.mem_append.mp hmem with hmem | hmem
    · exact hw x (hall x hx) hmem
    · exact htoken x hx hmem
  have hcomment : (pat "<!%-%-").Misses (w ++ str "<nop>") := by
    apply Pattern.Misses.of_reduce (b := str "<!--") (by decide)
    rintro ⟨a, b, hab⟩
    obtain ⟨t, ht, htb⟩ := htagged (str "!--" ++ b) ⟨a, by rw [← hab]; simp; rfl⟩
    obtain rfl := List.mem_singleton.mp ht
    exact absurd (List.cons_prefix_cons.mp htb).1 (by decide)
  have hends : (pat "%-%->").Misses (w ++ str "<nop>") := by
    apply Pattern.Misses.of_reduce (b := str "-->") (by decide)
    intro hin
    rcases infix_split (x := ch '<') (v := str "nop>") (by decide) hin with hin | hin
    · exact hgt (hin.subset (by decide))
    · exact absurd hin (by decide)
  have hopens : (pat "(<<+)").Misses (w ++ str "<nop>") :=
    Pattern.Misses.of_once (x := ch '<') (by decide) hlt (v := str "nop>") (by decide)
  have hcloses : (pat "(>>+)").Misses (w ++ str "<nop>") := by
    have hbefore : ch '>' ∉ w ++ str "<nop" := by
      intro hmem
      exact (List.mem_append.mp hmem).elim hgt (by decide)
    have hsplit : w ++ str "<nop>" = (w ++ str "<nop") ++ ch '>' :: [] := by
      rw [List.append_assoc]
      rfl
    rw [hsplit]
    exact Pattern.Misses.of_once (by decide) hbefore List.not_mem_nil
  have hmark : gsubStr (pat "<nop>") (str "nopTOKEN") (w ++ str "<nop>") = w ++ str "nopTOKEN" :=
    gsubStr_once (u := w) (v := []) (x := ch '>') rfl
      (by decide : _ = literalItems (str "<nop" ++ [ch '>'])) (by decide) (by decide) hgt
      List.not_mem_nil
  have hmiss : ∀ p : Pattern, (p.needs (ch '<') || p.needs (ch '>')) = true →
      p.Misses (w ++ str "nopTOKEN") := by
    intro p hp
    rcases Bool.or_eq_true_iff.mp hp with hp | hp
    · exact .of_needs hp (hno (ch '<') (by decide))
    · exact .of_needs hp (hno (ch '>') (by decide))
  have hcomment' := hmiss (pat "<!%-%-") (by decide)
  have hends' := hmiss (pat "%-%->") (by decide)
  have hopens' := hmiss (pat "(<<+)") (by decide)
  have hcloses' := hmiss (pat "(>>+)") (by decide)
  have hmark' := hmiss (pat "<nop>") (by decide)
  simp only [gsubStr] at hmark
  simp only [embeddedHtml, gsubStr]
  rw [replaceAll_misses hcomment, replaceAll_misses hends, replaceAll_misses hopens,
    replaceAll_misses hcloses, hmark, replaceAll_misses hcomment', replaceAll_misses hends',
    replaceAll_misses hopens', replaceAll_misses hcloses', replaceAll_misses hmark']

theorem MarkLine.embeddedHtml (h : MarkLine line) : WikiTags cls (embeddedHtml line) := by
  have hwords : ∀ w, (∀ x ∈ str "<>~", x ∉ w) → WikiTags cls (MoonWiki.embeddedHtml w) := by
    intro w hw
    have hplain : WikiTags cls w := .of_not_mem (hw (ch '<') (by decide))
    rw [embeddedHtml_words (hw (ch '<') (by decide)) (hw (ch '>') (by decide))
      (hw (ch '~') (by decide))]
    exact hplain.pass (by simp [textPasses])
  obtain ⟨w, hw, rfl | rfl⟩ := h
  · exact hwords line hw
  · rw [embeddedHtml_mark hw]
    apply hwords
    intro x hx hmem
    have htoken : ∀ x ∈ str "<>~", x ∉ str "nopTOKEN" := by decide
    exact (List.mem_append.mp hmem).elim (hw x hx) (htoken x hx)

theorem MarkLine.beforeTables (h : MarkLine line) : WikiTags cls (beforeTables cls line) := by
  rw [MoonWiki.beforeTables, h.blockQuote]
  exact (headings_wikiTags (entities_wikiTags (embeddedUrls_wikiTags h.embeddedHtml))).pass
    (by simp [textPasses])

end MoonWiki
