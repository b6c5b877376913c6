import MoonWiki.LuaErrors
import MoonWiki.PageLinks
import MoonWiki.WikiExporter

/-! The links of exported pages, and the files an export writes. -/
namespace MoonWiki
open Lua

/-! ### Pages and their links -/

/-- The name of a file that an export is to write. -/
def Written (config : ExportConfig) (d : Disk) (name : Bytes) : Prop :=
  ∃ title ∈ exportedFiles config d, name = title ++ serverConfig.exportSuffix

/-- The link is the name of a written file; its anchor may follow. -/
def Resolves (config : ExportConfig) (d : Disk) (href : Bytes) (anchor : Option Bytes) : Prop :=
  Written config d href ∨
    ∃ a name, anchor = some a ∧ Written config d name ∧ href = name ++ str "#" ++ a

/-- A rendered page: the title in the header of a wiki page, and the calls of `internalLink`. -/
structure ExportedPage where
  title : Option Bytes
  calls : List LinkCall

/-- The call for an entry of a list of pages. -/
def listCall (pageTitle : Bytes) : LinkCall := ⟨pageTitle, none, some pageTitle⟩

/-- The texts of some pages. -/
def pageTexts (d : Disk) (titles : List Bytes) : List Bytes :=
  titles.map fun t => (WikiStore.loadPage d t).getD []

/-- The pages an export renders. One formatter renders the wiki pages in turn. -/
inductive Exports (config : ExportConfig) (s : State) : ExportedPage → Prop
  | wikiPage {before after : List Bytes} {t content : Bytes}
      (listed : listedPages s.disk = before ++ t :: after)
      (loaded : WikiStore.loadPage s.disk t = some content) :
      Exports config s ⟨some t, pageCalls (formatterEnv .exporting s.disk) content
        (.after (formatterEnv .exporting s.disk) (pageTexts s.disk before) {})⟩
  | reverseLinks {t : Bytes} {pattern : Pattern} {pages : List Bytes}
      (asked : config.exportReverseLink = true) (listed : t ∈ listedPages s.disk)
      (parsed : parse (str "[^%w]" ++ t ++ str "[^%w]") = some pattern)
      (collected : (linkingTitles pattern (pageFiles s.disk) s).1 = .ok pages) :
      Exports config s ⟨none, listCall t :: pages.map listCall⟩
  | indexPage {pages : List Bytes}
      (collected : (indexTitles (pageFiles s.disk) s).1 = .ok pages) :
      Exports config s ⟨none, pages.map listCall⟩
  | recentChanges {pages : List (Bytes × Bytes)}
      (collected : (recentTitles 1 (s.sortByDate.run (pageFiles s.disk)) s).1 = .ok pages) :
      Exports config s ⟨none, pages.map fun page => listCall page.2⟩

/-- The links in the header of a page. -/
def headerHrefs (title : Option Bytes) : List Bytes :=
  [str "StartPage", str "IndexPage", str "RecentChanges"].map (· ++ serverConfig.exportSuffix) ++
    title.toList.map fun t => formatS (t ++ str "-ReverseLink" ++ serverConfig.exportSuffix)

/-- Every internal link of the page is the name of a written file. -/
def ExportedPage.Closed (config : ExportConfig) (d : Disk) (page : ExportedPage) : Prop :=
  (∀ href ∈ headerHrefs page.title, Resolves config d href none) ∧
    ∀ call ∈ page.calls, ∀ href, call.href (formatterEnv .exporting d) = some href →
      Resolves config d href call.anchor

/-- The condition for a link. A zero byte cuts the text that is printed. -/
def LinkCall.LeadsToFile (config : ExportConfig) (d : Disk) (call : LinkCall) : Prop :=
  match call.target (formatterEnv .exporting d) with
  | .special => False
  | .existing t =>
    if (0 : Byte) ∈ call.withAnchor t then
      Resolves config d (formatS (call.withAnchor t ++ serverConfig.exportSuffix)) call.anchor
    else call.anchor = none ∧ t ∈ exportedFiles config d
  | .missing => True

/-! ### The links of a header -/

theorem header_start (cls : FormatterClass) (title additions : Bytes) :
    existentPageLink cls (str "StartPage")
        (htk "IMG" [("border", str "0"), ("src", serverConfig.logoFile)] []) <:+:
      pageHeaderTemplate cls title additions := by
  refine List.IsInfix.trans ?_ (List.prefix_append _ _).isInfix
  refine List.IsInfix.trans ?_ (infix_htk_of_mem (List.mem_cons_self ..))
  refine List.IsInfix.trans ?_ (infix_htk_of_mem (List.mem_cons_self ..))
  exact infix_htk_of_mem (List.mem_cons_self ..)

theorem header_title (cls : FormatterClass) (title additions : Bytes) :
    title <:+: pageHeaderTemplate cls title additions := by
  refine List.IsInfix.trans ?_ (List.prefix_append _ _).isInfix
  refine List.IsInfix.trans ?_ (infix_htk_of_mem (List.mem_cons_self ..))
  refine List.IsInfix.trans ?_ (infix_htk_of_mem (x := htk "TD" [("width", str "100%"),
    ("valign", str "center")] [htk "H1" [] [str "&nbsp;" ++ title]]) (by simp))
  refine List.IsInfix.trans ?_ (infix_htk_of_mem (List.mem_cons_self ..))
  exact (List.suffix_append _ _).isInfix.trans (infix_htk_of_mem (List.mem_cons_self ..))

theorem header_additions (cls : FormatterClass) (title additions : Bytes) :
    additions <:+: pageHeaderTemplate cls title additions := by
  refine List.IsInfix.trans ?_ (List.prefix_append _ _).isInfix
  refine List.IsInfix.trans ?_ (infix_htk_of_mem (x := htk "TR" [] [htk "TD" [] [additions]])
    (by simp))
  refine List.IsInfix.trans ?_ (infix_htk_of_mem (List.mem_cons_self ..))
  exact infix_htk_of_mem (List.mem_cons_self ..)

theorem headerHrefs_actions (title : Bytes) : ∀ href ∈ headerHrefs none,
    str " href=\"" ++ href ++ str "\"" <:+:
      pageHeaderTemplate .exporting title (exportActions .exporting) := by
  have hplain : ∀ t ∈ [str "StartPage", str "IndexPage", str "RecentChanges"],
      formatS (t ++ serverConfig.exportSuffix) = t ++ serverConfig.exportSuffix := by decide
  have hlink : ∀ t ∈ [str "StartPage", str "IndexPage", str "RecentChanges"], ∀ text,
      str " href=\"" ++ (t ++ serverConfig.exportSuffix) ++ str "\"" <:+:
        existentPageLink .exporting t text := by
    intro t ht text
    have hattr : str " href=\"" ++ formatS (t ++ serverConfig.exportSuffix) ++ str "\"" <:+:
        existentPageLink .exporting t text :=
      href_infix_htk (List.mem_cons_of_mem _ (List.mem_cons_self ..))
    rwa [hplain t ht] at hattr
  intro href hhref
  simp only [headerHrefs, Option.toList_none, List.map_nil, List.append_nil, List.map_cons,
    List.mem_cons, List.not_mem_nil, or_false] at hhref
  rcases hhref with rfl | rfl | rfl
  · exact (hlink _ (by simp) _).trans (header_start _ _ _)
  · refine (hlink _ (by simp) (str "Index page")).trans (.trans ?_ (header_additions _ _ _))
    exact infix_htk_of_mem (by simp)
  · refine (hlink _ (by simp) (str "Recent changes")).trans (.trans ?_ (header_additions _ _ _))
    exact infix_htk_of_mem (by simp)

/-- The links of a header stand in it. -/
theorem headerHrefs_special (title : Bytes) : ∀ href ∈ headerHrefs none,
    str " href=\"" ++ href ++ str "\"" <:+: specialPageHeader .exporting title :=
  headerHrefs_actions title

theorem headerHrefs_standard (title : Bytes) : ∀ href ∈ headerHrefs (some title),
    str " href=\"" ++ href ++ str "\"" <:+: standardPageHeader .exporting title := by
  intro href hhref
  have hactions := headerHrefs_actions (reversePageLink .exporting title) href
  rcases List.mem_append.mp hhref with hmem | hmem
  · exact hactions (List.mem_append_left _ hmem)
  · obtain rfl : href = formatS (title ++ str "-ReverseLink" ++ serverConfig.exportSuffix) := by
      simpa using hmem
    exact (href_infix_htk (by simp)).trans (header_title .exporting
      (reversePageLink .exporting title) (exportActions .exporting))

/-! ### The names of written files -/

section
variable {config : ExportConfig} {d : Disk} {t : Bytes}

theorem mem_exportedTitles :
    t ∈ exportedTitles d ↔ t ∈ listedPages d := List.mem_dedup

theorem listedPages_word (h : t ∈ listedPages d) : IsWikiWord t := by
  obtain ⟨_, hvalid⟩ := List.mem_filter.mp h
  exact isValidTitle_iff.mp (by simp at hvalid; exact hvalid.1)

theorem exportedFiles_cases (h : t ∈ exportedFiles config d) :
    t ∈ exportedTitles d ∨
      (config.exportReverseLink = true ∧ ∃ u ∈ exportedTitles d, t = u ++ str "-ReverseLink") ∨
        t = str "IndexPage" ∨ t = str "RecentChanges" := by
  rw [exportedFiles] at h
  rcases List.mem_append.mp h with h | h
  · rcases List.mem_append.mp h with h | h
    · exact .inl h
    · split_ifs at h with hflag
      · obtain ⟨u, hu, rfl⟩ := List.mem_map.mp h
        exact .inr (.inl ⟨hflag, u, hu, rfl⟩)
      · simp at h
  · exact .inr (.inr (by simpa using h))

/-- Letters, digits and a dash. -/
theorem exportedFiles_plain (h : t ∈ exportedFiles config d) :
    ∀ b ∈ t, isAlnum b = true ∨ b = ch '-' := by
  have hword : ∀ u ∈ exportedTitles d, ∀ b ∈ u, isAlnum b = true := fun u hu =>
    (listedPages_word (mem_exportedTitles.mp hu)).alnum
  have hreverse : ∀ b ∈ str "-ReverseLink", isAlnum b = true ∨ b = ch '-' := by decide
  rcases exportedFiles_cases h with h | ⟨_, u, hu, rfl⟩ | rfl | rfl
  · exact fun b hb => .inl (hword t h b hb)
  · intro b hb
    rcases List.mem_append.mp hb with hb | hb
    · exact .inl (hword u hu b hb)
    · exact hreverse b hb
  · decide
  · decide

theorem start_mem_exportedFiles :
    str "StartPage" ∈ exportedFiles config d ↔ str "StartPage" ∈ exportedTitles d := by
  constructor
  · intro h
    rcases exportedFiles_cases h with h | ⟨_, u, hu, heq⟩ | h | h
    · exact h
    · have hdash : ch '-' ∈ str "StartPage" := by
        rw [heq]
        simp; right; decide
      exact absurd hdash (by decide)
    · exact absurd h (by decide)
    · exact absurd h (by decide)
  · intro h
    rw [exportedFiles]
    simp [h]

theorem reverse_mem_exportedFiles (ht : t ∈ exportedTitles d) :
    t ++ str "-ReverseLink" ∈ exportedFiles config d ↔ config.exportReverseLink = true := by
  have hdash : ch '-' ∈ t ++ str "-ReverseLink" := by
    simp; right; decide
  constructor
  · intro h
    rcases exportedFiles_cases h with h | ⟨hflag, _⟩ | h | h
    · exact absurd ((listedPages_word (mem_exportedTitles.mp h)).alnum _ hdash) (by decide)
    · exact hflag
    · exact absurd (h ▸ hdash) (by decide)
    · exact absurd (h ▸ hdash) (by decide)
  · intro h
    rw [exportedFiles, if_pos h]
    simp [ht]

theorem written_iff : Written config d (t ++ serverConfig.exportSuffix) ↔
    t ∈ exportedFiles config d := by
  constructor
  · rintro ⟨title, htitle, heq⟩
    rwa [List.append_cancel_right heq]
  · exact fun h => ⟨t, h, rfl⟩

theorem Written.no_sharp {name : Bytes} (h : Written config d name) : ch '#' ∉ name := by
  obtain ⟨title, htitle, rfl⟩ := h
  intro hb
  rcases List.mem_append.mp hb with hb | hb
  · rcases exportedFiles_plain htitle _ hb with h | h
    · exact absurd h (by decide)
    · exact absurd h (by decide)
  · exact absurd hb (by decide)

theorem resolves_none {href : Bytes} : Resolves config d href none ↔ Written config d href := by
  simp [Resolves]

theorem formatS_plain {v : Bytes} (h : (0 : Byte) ∉ v) : formatS v = v := by
  rw [formatS, cString_eq_self fun b hb h0 => h (h0 ▸ hb), ite_self]

/-- A link to a file has no anchor: the suffix stands behind it. -/
theorem resolves_link_iff {call : LinkCall} (hzero : (0 : Byte) ∉ call.withAnchor t) :
    Resolves config d (formatS (call.withAnchor t ++ serverConfig.exportSuffix)) call.anchor ↔
      call.anchor = none ∧ t ∈ exportedFiles config d := by
  have hsuffix : (0 : Byte) ∉ serverConfig.exportSuffix := by decide
  rw [formatS_plain (by simp [hzero, hsuffix]), LinkCall.withAnchor]
  cases call.anchor with
  | none => simp [resolves_none, written_iff]
  | some a =>
    have hsharp : ch '#' ∈ t ++ str "#" := by
      simp; right; decide
    refine iff_of_false ?_ (by simp)
    rintro (hwritten | ⟨a', name, ha, hwritten, heq⟩)
    · have hmem : ch '#' ∈ t ++ str "#" ++ a ++ serverConfig.exportSuffix :=
        List.mem_append_left _ (List.mem_append_left _ hsharp)
      exact hwritten.no_sharp hmem
    · -- the name before its `#` is longer than what stands before the first one
      obtain rfl := Option.some.inj ha
      have hlen := congrArg List.length heq
      have hshort : (t ++ str "#").length ≤ name.length := by
        have hone : serverConfig.exportSuffix.length = 5 ∧ (str "#").length = 1 := by decide
        simp only [List.length_append, hone] at hlen ⊢
        omega
      have hname : t ++ str "#" <+: name ++ (str "#" ++ a) := by
        rw [← List.append_assoc, ← heq, List.append_assoc]
        exact List.prefix_append _ _
      have hp : t ++ str "#" <+: name :=
        List.prefix_of_prefix_length_le hname (List.prefix_append _ _) hshort
      exact hwritten.no_sharp (hp.subset hsharp)

end

/-! ### Closed pages -/

/-- A link leads to a file exactly when its condition holds. -/
theorem call_resolves_iff (config : ExportConfig) (d : Disk) (call : LinkCall) :
    (∀ href, call.href (formatterEnv .exporting d) = some href →
      Resolves config d href call.anchor) ↔ call.LeadsToFile config d := by
  rw [LinkCall.LeadsToFile]
  cases htarget : call.target (formatterEnv .exporting d) with
  | special =>
    have hhref : call.href (formatterEnv .exporting d) = some (formatS call.topic) := by
      rw [LinkCall.href, htarget]
      rfl
    have hspecial : isSpecialPage call.topic = true := LinkCall.target_special htarget
    obtain ⟨special, hs⟩ := Option.isSome_iff_exists.mp hspecial
    have hplain := (isValidTitle_iff.mp (isValidTitle_of_special hs)).alnum
    have hzero : (0 : Byte) ∉ call.topic := fun hb => absurd (hplain _ hb) (by decide)
    simp only [hhref, Option.some.injEq, forall_eq', formatS_plain hzero, iff_false]
    rintro (⟨title, _, heq⟩ | ⟨a, name, _, _, heq⟩)
    · have hdot : ch '.' ∈ call.topic := by
        rw [heq]
        simp; right; decide
      exact absurd (hplain _ hdot) (by decide)
    · have hsharp : ch '#' ∈ call.topic := by
        rw [heq]
        simp; right; left; decide
      exact absurd (hplain _ hsharp) (by decide)
  | existing t =>
    have hhref : call.href (formatterEnv .exporting d) =
        some (formatS (call.withAnchor t ++ serverConfig.exportSuffix)) := by
      rw [LinkCall.href, htarget]
      rfl
    simp only [hhref, Option.some.injEq, forall_eq']
    split_ifs with hzero
    · rfl
    · exact resolves_link_iff hzero
  | missing =>
    have hhref : call.href (formatterEnv .exporting d) = none := by
      rw [LinkCall.href, htarget]
      rfl
    simp [hhref]

theorem headerHrefs_resolve_iff {config : ExportConfig} {d : Disk} {title : Option Bytes}
    (h : ∀ t, title = some t → t ∈ exportedTitles d) :
    (∀ href ∈ headerHrefs title, Resolves config d href none) ↔
      str "StartPage" ∈ exportedTitles d ∧
        (title.isSome → config.exportReverseLink = true) := by
  have hspecial : str "IndexPage" ∈ exportedFiles config d ∧
      str "RecentChanges" ∈ exportedFiles config d := by simp [exportedFiles]
  cases title with
  | none => simp [headerHrefs, resolves_none, written_iff, start_mem_exportedFiles, hspecial]
  | some t =>
    have ht := h t rfl
    have hconst : (0 : Byte) ∉ str "-ReverseLink" ∧ (0 : Byte) ∉ serverConfig.exportSuffix := by
      decide
    have hword : (0 : Byte) ∉ t := fun hb =>
      absurd ((listedPages_word (mem_exportedTitles.mp ht)).alnum _ hb) (by decide)
    have hzero : (0 : Byte) ∉ t ++ str "-ReverseLink" ++ serverConfig.exportSuffix := by
      simp [hconst, hword]
    have hreverse : Written config d
        (formatS (t ++ str "-ReverseLink" ++ serverConfig.exportSuffix)) ↔
          config.exportReverseLink = true := by
      rw [formatS_plain hzero, written_iff, reverse_mem_exportedFiles ht]
    rw [List.append_assoc] at hreverse
    simp [headerHrefs, resolves_none, written_iff, start_mem_exportedFiles, hspecial, hreverse]

/-- Every page of an export has working links exactly when there is a start page, pages of
reverse links are written if there is a wiki page, and each link leads to a file. -/
theorem exports_closed_iff (config : ExportConfig) (s : State) :
    (∀ page, Exports config s page → page.Closed config s.disk) ↔
      ∀ page, Exports config s page →
        str "StartPage" ∈ exportedTitles s.disk ∧
          (page.title.isSome → config.exportReverseLink = true) ∧
            ∀ call ∈ page.calls, call.LeadsToFile config s.disk := by
  refine forall₂_congr fun page hpage => ?_
  have htitle : ∀ t, page.title = some t → t ∈ exportedTitles s.disk := by
    intro t ht
    cases hpage with
    | wikiPage listed loaded =>
      obtain rfl := Option.some.inj ht
      rw [mem_exportedTitles, listed]
      simp
    | _ => cases ht
  rw [ExportedPage.Closed, headerHrefs_resolve_iff htitle, and_assoc]
  refine and_congr_right' (and_congr_right' (forall₂_congr fun call _ => ?_))
  exact call_resolves_iff config s.disk call

/-- The start page alone, exported without pages of reverse links. -/
theorem exports_start_page_not_closed :
    let s : State := { State.fresh with disk := .ofPages [(str "StartPage", [])] }
    Exports ⟨str "out", false⟩ s ⟨some (str "StartPage"), []⟩ ∧
      ¬ ∀ page, Exports ⟨str "out", false⟩ s page → page.Closed ⟨str "out", false⟩ s.disk := by
  intro s
  have hcalls : pageCalls (formatterEnv .exporting s.disk) []
      (.after (formatterEnv .exporting s.disk) (pageTexts s.disk []) {}) = [] := by
    decide +kernel
  have hlisted : listedPages s.disk = [] ++ str "StartPage" :: [] := by decide +kernel
  have hpage : Exports ⟨str "out", false⟩ s ⟨some (str "StartPage"), []⟩ := by
    rw [← hcalls]
    exact .wikiPage hlisted (by decide)
  have hfiles : str "StartPage" ++ str "-ReverseLink" ∉
      exportedFiles ⟨str "out", false⟩ s.disk := by
    decide +kernel
  refine ⟨hpage, fun h => hfiles ?_⟩
  have hplain : formatS (str "StartPage" ++ str "-ReverseLink" ++ serverConfig.exportSuffix) =
      str "StartPage" ++ str "-ReverseLink" ++ serverConfig.exportSuffix := by decide
  have hlink := (h _ hpage).1 _ (List.mem_append_right _ (List.mem_singleton_self _))
  exact written_iff.mp (hplain ▸ resolves_none.mp hlink)

end MoonWiki
