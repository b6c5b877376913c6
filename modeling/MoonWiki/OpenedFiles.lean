import MoonWiki.PostHandlers
import MoonWiki.WikiWord

/-! The files that the handlers of a GET request open: rules for composing what is opened,
and what each page opens. -/
namespace MoonWiki
open Lua

variable {α β : Type} {R : Bytes → Prop}

/-! ### Rules -/

/-- From one state to the other, files were opened for reading only, of paths in `R`; disk and
URL are the same. -/
structure OnlyRead (R : Bytes → Prop) (s s' : State) : Prop where
  opened : ∃ paths : List Bytes, s'.opened = s.opened ++ paths.map (Mode.read, ·) ∧ ∀ p ∈ paths, R p
  disk : s'.disk = s.disk
  url : s'.request.url = s.request.url

theorem OnlyRead.trans {s s' s'' : State} (h : OnlyRead R s s') (h' : OnlyRead R s' s'') :
    OnlyRead R s s'' := by
  obtain ⟨⟨paths, hopened, hpaths⟩, hdisk, hurl⟩ := h
  obtain ⟨⟨paths', hopened', hpaths'⟩, hdisk', hurl'⟩ := h'
  refine ⟨⟨paths ++ paths', ?_, ?_⟩, hdisk'.trans hdisk, hurl'.trans hurl⟩
  · rw [hopened', hopened, List.map_append, List.append_assoc]
  · intro p hp
    rcases List.mem_append.mp hp with hp | hp
    · exact hpaths p hp
    · exact hpaths' p hp

/-- However it ends, the action only reads, and only files with a path in `R`. -/
def Reads (R : Bytes → Prop) (x : Action α) : Prop := ∀ s, OnlyRead R s (x s).2

theorem Reads.of_same {x : Action α}
    (h : ∀ s, (x s).2.opened = s.opened ∧ (x s).2.disk = s.disk ∧
      (x s).2.request.url = s.request.url) : Reads R x := by
  intro s
  exact ⟨⟨[], by simp [(h s).1], by simp⟩, (h s).2.1, (h s).2.2⟩

theorem Reads.pure (a : α) : Reads R (Pure.pure a : Action α) := .of_same fun _ => ⟨rfl, rfl, rfl⟩

theorem Reads.error (e : LuaError) : Reads R (Run.error e : Action α) :=
  .of_same fun _ => ⟨rfl, rfl, rfl⟩

theorem Reads.get : Reads R (Run.get : Action State) := .of_same fun _ => ⟨rfl, rfl, rfl⟩

/-- What follows may rely on the value it is given. -/
theorem Reads.bind_value {x : Action α} {f : α → Action β} (hx : Reads R x)
    (hf : ∀ s a s', x s = (.ok a, s') → Reads R (f a)) : Reads R (x >>= f) := by
  intro s
  have hs := hx s
  rw [Run.bind_apply]
  rcases hrun : x s with ⟨e | a, s'⟩
  · rwa [hrun] at hs
  · rw [hrun] at hs
    exact hs.trans (hf s a s' hrun s')

theorem Reads.bind {x : Action α} {f : α → Action β} (hx : Reads R x) (hf : ∀ a, Reads R (f a)) :
    Reads R (x >>= f) := hx.bind_value fun _ a _ _ => hf a

theorem Reads.get_bind {f : State → Action β} (hf : ∀ s, Reads R (f s)) :
    Reads R (Run.get >>= f) := Reads.get.bind hf

theorem Reads.ite {c : Prop} [Decidable c] {x y : Action α} (hx : c → Reads R x)
    (hy : ¬ c → Reads R y) : Reads R (if c then x else y) := by
  by_cases hc : c
  · rw [if_pos hc]
    exact hx hc
  · rw [if_neg hc]
    exact hy hc

theorem reads_openFile {path : Bytes} (h : R path) : Reads R (openFile .read path) := by
  intro s
  exact ⟨⟨[path], rfl, by simpa using h⟩, rfl, rfl⟩

theorem reads_setStatus (status : Nat) : Reads R (setStatus status) :=
  .of_same fun _ => ⟨rfl, rfl, rfl⟩

theorem reads_setFormatter : Reads R setFormatter := .of_same fun _ => ⟨rfl, rfl, rfl⟩

theorem reads_topicExists {t : Bytes} (h : R (pagePath t)) : Reads R (topicExists t) :=
  (reads_openFile h).bind fun _ => .pure _

theorem reads_loadPage {t : Option Bytes} (h : ∀ u, t = some u → R (pagePath u)) :
    Reads R (loadPage t) := by
  cases t with
  | none => exact .error _
  | some u => exact reads_openFile (h u rfl)

/-- The topics a method of the formatter looks up are opened. -/
theorem reads_withFormatter {f : FormatterEnv → FormatterState → α × FormatterState}
    (h : ∀ env st, st.probed = [] → ∀ t ∈ (f env st).2.probed, R (pagePath t)) :
    Reads R (withFormatter f) := by
  intro s
  refine ⟨⟨_, (congrArg (s.opened ++ ·) (List.map_map ..).symm), ?_⟩, rfl, rfl⟩
  intro p hp
  obtain ⟨t, ht, rfl⟩ := List.mem_map.mp hp
  exact h _ _ rfl t ht

/-! ### Looked-up topics -/

/-- The topics are made of letters and digits. -/
def Plain (t : Bytes) : Prop := ∀ b ∈ t, isAlnum b

theorem gsubStr_plain {is : List Item} {repl s : Bytes} (hs : Plain s)
    (hrepl : ∀ m : Match, Plain m.whole → (∀ t ∈ m.captures, Plain t) → Plain (addS m repl)) :
    Plain (gsubStr ⟨false, is⟩ repl s) :=
  replaceAll_bytes hs hrepl

theorem singular_plain {t : Bytes} (ht : Plain t) : Plain (singular t) := by
  have hcap : ∀ m : Match, Plain m.whole → (∀ t ∈ m.captures, Plain t) →
      Plain (addS m (str "%1")) := by
    intro m _ hcaps
    have hadd : addS m (str "%1") = m.captures.getD 0 [] := by
      rw [show str "%1" = [37, 49] by decide]
      simp [addS, ch, isDigit]
    rw [hadd]
    cases hc : m.captures with
    | nil => simp [Plain]
    | cons u us => exact hcaps u (by simp [hc])
  have hconst : ∀ repl : Bytes, repl.all isAlnum = true → ∀ m : Match, Plain m.whole →
      (∀ t ∈ m.captures, Plain t) → Plain (addS m repl) := by
    intro repl hrepl m _ _
    have hplain : Plain repl := List.all_eq_true.mp hrepl
    have hpercent : ch '%' ∉ repl := fun h => absurd (hplain _ h) (by decide)
    rwa [addS_plain m hpercent]
  obtain ⟨i₁, h₁⟩ : ∃ is, pat "ies$" = ⟨false, is⟩ := ⟨(pat "ies$").items, by decide⟩
  obtain ⟨i₂, h₂⟩ : ∃ is, pat "sses$" = ⟨false, is⟩ := ⟨(pat "sses$").items, by decide⟩
  obtain ⟨i₃, h₃⟩ : ∃ is, pat "([Xx])es$" = ⟨false, is⟩ :=
    ⟨(pat "([Xx])es$").items, by decide⟩
  obtain ⟨i₄, h₄⟩ : ∃ is, pat "([A-Za-rt-z])s$" = ⟨false, is⟩ :=
    ⟨(pat "([A-Za-rt-z])s$").items, by decide⟩
  rw [singular, h₁, h₂, h₃, h₄]
  refine gsubStr_plain (gsubStr_plain (gsubStr_plain (gsubStr_plain ht ?_) ?_) hcap) hcap
  · exact hconst _ (by decide)
  · exact hconst _ (by decide)

theorem WikiFormatter.internalLink_probed {env : FormatterEnv} {topic : Bytes}
    {a x : Option Bytes} {st : FormatterState} (ht : Plain topic)
    (hst : ∀ t ∈ st.probed, Plain t) :
    ∀ t ∈ (WikiFormatter.internalLink env topic a x st).2.probed, Plain t := by
  have hone : ∀ t ∈ st.probed ++ [topic], Plain t := by
    intro t h
    rcases List.mem_append.mp h with h | h
    · exact hst t h
    · exact List.mem_singleton.mp h ▸ ht
  have htwo : ∀ t ∈ st.probed ++ [topic] ++ [singular topic], Plain t := by
    intro t h
    rcases List.mem_append.mp h with h | h
    · exact hone t h
    · exact List.mem_singleton.mp h ▸ singular_plain ht
  simp only [WikiFormatter.internalLink, probe]
  by_cases hspecial : env.isSpecialPage topic = true
  · rw [if_pos hspecial]
    exact hst
  · rw [if_neg hspecial]
    -- a plural that does not exist is looked up a second time
    by_cases hplural : (!env.topicExists topic && lastByte topic = str "s") = true
    · simp only [hplural, ↓reduceIte]
      split
      · exact htwo
      · exact htwo
    · simp only [hplural, Bool.false_eq_true, ↓reduceIte]
      split
      · exact hone
      · exact hone

theorem internalLink_probed {env : FormatterEnv} {topic : Bytes} {a x : Option Bytes}
    {st : FormatterState} (ht : Plain topic) (hst : ∀ t ∈ st.probed, Plain t) :
    ∀ t ∈ (internalLink env topic a x st).2.probed, Plain t := by
  rw [internalLink]
  cases env.cls with
  | printable => exact hst
  | wiki => exact WikiFormatter.internalLink_probed ht hst
  | exporting => exact WikiFormatter.internalLink_probed ht hst

theorem foldl_link_probed {env : FormatterEnv} {pages : List (List Bytes × Bytes)} {list : Bytes}
    {st : FormatterState} (hp : ∀ e ∈ pages, Plain e.2) (hst : ∀ t ∈ st.probed, Plain t) :
    ∀ t ∈ (pages.foldl (fun (list, st) (label, pageTitle) =>
      let (link, st) := internalLink env pageTitle none (some pageTitle) st
      (list ++ htk "LI" [] (label ++ [link]) ++ str "\n", st)) (list, st)).2.probed, Plain t := by
  induction pages generalizing list st with
  | nil => exact hst
  | cons e pages ih =>
    exact ih (fun e' he' => hp e' (by simp [he'])) (internalLink_probed (hp e (by simp)) hst)

theorem linkList_probed {env : FormatterEnv} {pages : List (List Bytes × Bytes)}
    {st : FormatterState} (hp : ∀ e ∈ pages, Plain e.2) (hst : ∀ t ∈ st.probed, Plain t) :
    ∀ t ∈ (linkList env pages st).2.probed, Plain t := foldl_link_probed hp hst

theorem specialIndexPageTemplate_probed {env : FormatterEnv} {pages : List Bytes}
    {st : FormatterState} (hp : ∀ t ∈ pages, Plain t) (hst : st.probed = []) :
    ∀ t ∈ (specialIndexPageTemplate env pages st).2.probed, Plain t := by
  refine linkList_probed ?_ (by simp [hst])
  intro e he
  obtain ⟨t, ht, rfl⟩ := List.mem_map.mp he
  exact hp t ht

theorem specialRecentChangesTemplate_probed {env : FormatterEnv} {pages : List (Bytes × Bytes)}
    {st : FormatterState} (hp : ∀ e ∈ pages, Plain e.2) (hst : st.probed = []) :
    ∀ t ∈ (specialRecentChangesTemplate env pages st).2.probed, Plain t := by
  refine linkList_probed ?_ (by simp [hst])
  intro e he
  obtain ⟨e', he', rfl⟩ := List.mem_map.mp he
  exact hp e' he'

theorem specialReverseLinkTemplate_probed {env : FormatterEnv} {pageName : Bytes}
    {pages : Option (List Bytes)} {st : FormatterState} (hname : Plain pageName)
    (hp : ∀ l, pages = some l → ∀ t ∈ l, Plain t) (hst : st.probed = []) :
    ∀ t ∈ (specialReverseLinkTemplate env pageName pages st).2.probed, Plain t := by
  have hlink : ∀ t ∈ (internalLink env pageName none (some pageName) st).2.probed, Plain t :=
    internalLink_probed hname (by simp [hst])
  cases pages with
  | none => exact hlink
  | some l =>
    refine linkList_probed ?_ hlink
    intro e he
    obtain ⟨t, ht, rfl⟩ := List.mem_map.mp he
    exact hp l rfl t ht

/-! ### Special pages -/

/-- The files of titles made of letters and digits. -/
def PlainPage (path : Bytes) : Prop := ∃ t, Plain t ∧ path = pagePath t

def titleItems : List Item :=
  [.startCapture, .single (.cls (ch 'w')) .plus, .endCapture, .single .any .one,
    .single (.cls (ch 'w')) .plus, .eos]

theorem getNameWithoutSuffix_eq (name : Bytes) : getNameWithoutSuffix name =
    (findFrom titleItems name).bind fun found => found.2.captures.head? := by
  have hpat : pat "(%w+).%w+$" = ⟨false, titleItems⟩ := by decide
  rw [getNameWithoutSuffix, capture?, hpat]
  rfl

/-- Letters and digits, one byte, and letters and digits up to the end. -/
theorem matchHere_title {v : Bytes} {m : Match} (h : matchHere titleItems v = some m) :
    ∃ t b x, v = t ++ b :: x ∧ Plain t ∧ Plain x ∧ x ≠ [] ∧ m.captures = [t] := by
  obtain ⟨⟨rest, caps⟩, hd, rfl⟩ := Option.map_eq_some_iff.mp h
  obtain ⟨t, v, rfl, _, ht, hd⟩ := doMatch_plus_sound hd
  change doMatch (.endCapture :: _) ([] ++ [.unfinished (t ++ v)]) v = _ at hd
  rw [doMatch_endCapture] at hd
  obtain ⟨b, v, rfl, _, hd⟩ := doMatch_one_sound hd
  obtain ⟨x, v, rfl, hne, hx, hd⟩ := doMatch_plus_sound hd
  rw [doMatch] at hd
  split at hd
  · rename_i hv
    obtain ⟨rfl, rfl⟩ := Prod.mk.inj (Option.some.inj hd)
    exact ⟨t, b, x, by rw [hv, List.append_nil], ht, hx, hne, rfl⟩
  · cases hd

theorem getNameWithoutSuffix_plain {name t : Bytes} (h : getNameWithoutSuffix name = some t) :
    Plain t := by
  rw [getNameWithoutSuffix_eq] at h
  obtain ⟨⟨before, m⟩, hfind, hcap⟩ := Option.bind_eq_some_iff.mp h
  obtain ⟨v, rfl, hm⟩ := findFrom_sound hfind
  obtain ⟨u, _, _, _, hu, _, _, hcaptures⟩ := matchHere_title hm
  obtain rfl : u = t := by simpa [hcaptures] using hcap
  exact hu

theorem listedTitle_reads (file : FileEntry) : Reads R (listedTitle file) := by
  rw [listedTitle]
  split
  · exact .error _
  · exact .pure _

/-- A listed title is a WikiWord. -/
theorem listedTitle_plain {file : FileEntry} {s s' : State} {t : Bytes}
    (h : listedTitle file s = (.ok (some t), s')) : Plain t := by
  cases hu : getNameWithoutSuffix file.name with
  | none => simp [listedTitle, hu] at h
  | some u =>
    simp only [listedTitle, hu, Run.pure_apply, Prod.mk.injEq, Except.ok.injEq] at h
    by_cases hv : isValidTitle u = true
    · rw [if_pos hv] at h
      obtain rfl := Option.some.inj h.1
      exact getNameWithoutSuffix_plain hu
    · simp [hv] at h

theorem indexTitles_reads (files : List FileEntry) : Reads R (indexTitles files) := by
  induction files with
  | nil => exact .pure _
  | cons file files ih =>
    exact (listedTitle_reads file).bind fun _ => ih.bind fun _ => .pure _

theorem indexTitles_plain {files : List FileEntry} {s s' : State} {pages : List Bytes}
    (h : indexTitles files s = (.ok pages, s')) : ∀ t ∈ pages, Plain t := by
  induction files generalizing s s' pages with
  | nil =>
    obtain rfl := Except.ok.inj (Prod.mk.inj h).1
    simp
  | cons file files ih =>
    rw [indexTitles, Run.bind_apply] at h
    rcases hone : listedTitle file s with ⟨e | title, s₁⟩
    · simp [hone] at h
    · rw [hone] at h
      simp only [Run.bind_apply] at h
      rcases hrest : indexTitles files s₁ with ⟨e | rest, s₂⟩
      · simp [hrest] at h
      · rw [hrest] at h
        obtain rfl := Except.ok.inj (Prod.mk.inj h).1
        intro t ht
        rcases List.mem_append.mp ht with ht | ht
        · cases title with
          | none => simp at ht
          | some u =>
            obtain rfl : t = u := by simpa using ht
            exact listedTitle_plain hone
        · exact ih hrest t ht

theorem recentTitles_reads (i : Nat) (files : List FileEntry) : Reads R (recentTitles i files) := by
  induction files generalizing i with
  | nil => exact .pure _
  | cons file files ih =>
    refine (listedTitle_reads file).bind fun title => ?_
    refine .ite (fun _ => .pure _) fun _ => ?_
    exact (ih (i + 1)).bind fun _ => .pure _

theorem recentTitles_plain {i : Nat} {files : List FileEntry} {s s' : State}
    {pages : List (Bytes × Bytes)} (h : recentTitles i files s = (.ok pages, s')) :
    ∀ e ∈ pages, Plain e.2 := by
  induction files generalizing i s s' pages with
  | nil =>
    obtain rfl := Except.ok.inj (Prod.mk.inj h).1
    simp
  | cons file files ih =>
    rw [recentTitles, Run.bind_apply] at h
    rcases hone : listedTitle file s with ⟨e | title, s₁⟩
    · simp [hone] at h
    · rw [hone] at h
      have hentry : ∀ e ∈ title.toList.map fun t => (file.date, t), Plain e.2 := by
        intro e he
        obtain ⟨t, ht, rfl⟩ := List.mem_map.mp he
        obtain rfl : title = some t := by simpa using ht
        exact listedTitle_plain hone
      simp only at h
      split at h
      · obtain rfl := Except.ok.inj (Prod.mk.inj h).1
        exact hentry
      · rw [Run.bind_apply] at h
        rcases hrest : recentTitles (i + 1) files s₁ with ⟨e | rest, s₂⟩
        · simp [hrest] at h
        · rw [hrest] at h
          obtain rfl := Except.ok.inj (Prod.mk.inj h).1
          intro e he
          rcases List.mem_append.mp he with he | he
          · exact hentry e he
          · exact ih hrest e he

theorem plainPage {t : Bytes} (ht : Plain t) : PlainPage (pagePath t) := ⟨t, ht, rfl⟩

theorem createSpecialIndexPage_reads : Reads PlainPage createSpecialIndexPage := by
  refine .get_bind fun s => (indexTitles_reads _).bind_value fun _ pages _ hrun => ?_
  refine (reads_withFormatter fun env st hst t ht => ?_).bind fun _ => .pure _
  refine plainPage (specialIndexPageTemplate_probed ?_ hst t ht)
  intro u hu
  exact indexTitles_plain hrun u ((List.perm_insertionSort _ pages).mem_iff.mp hu)

theorem createSpecialRecentChanges_reads : Reads PlainPage createSpecialRecentChanges := by
  refine .get_bind fun s => (recentTitles_reads 1 _).bind_value fun _ pages _ hrun => ?_
  refine (reads_withFormatter fun env st hst t ht => ?_).bind fun _ => .pure _
  exact plainPage (specialRecentChangesTemplate_probed (recentTitles_plain hrun) hst t ht)

theorem createSpecialSearchPage_reads : Reads R createSpecialSearchPage :=
  .get_bind fun _ => .pure _

theorem createSpecialEditPage_reads : Reads PlainPage createSpecialEditPage := by
  refine .get_bind fun s => ?_
  cases s.request.parameters.get (str "page") with
  | none => exact (reads_setStatus 400).bind fun _ => .pure _
  | some pageName =>
    refine .ite (fun _ => (reads_setStatus 400).bind fun _ => .pure _) fun hv => ?_
    have hplain : Plain pageName := (isValidTitle_iff.mp (by simpa using hv)).alnum
    refine (reads_loadPage ?_).bind fun _ => .get_bind fun _ => .pure _
    rintro u ⟨⟩
    exact plainPage hplain

theorem isValidPage_reads (title : Option Bytes) : Reads PlainPage (isValidPage title) := by
  cases title with
  | none => exact .pure _
  | some t =>
    exact .ite (fun hv => reads_topicExists (plainPage (isValidTitle_iff.mp hv).alnum))
      fun _ => .pure _

theorem isValidPage_plain {title : Option Bytes} {s s' : State}
    (h : isValidPage title s = (.ok true, s')) : Plain (title.getD []) := by
  cases title with
  | none => cases h
  | some t =>
    by_cases hv : isValidTitle t = true
    · exact (isValidTitle_iff.mp hv).alnum
    · rw [isValidPage, if_neg hv] at h
      cases h

theorem linkingTitles_reads (pattern : Pattern) (files : List FileEntry) :
    Reads PlainPage (linkingTitles pattern files) := by
  induction files with
  | nil => exact .pure _
  | cons file files ih =>
    refine (reads_loadPage fun u hu => ?_).bind fun _ => ih.bind fun _ => .pure _
    exact plainPage (getNameWithoutSuffix_plain hu)

theorem linkingTitles_plain {pattern : Pattern} {files : List FileEntry} {s s' : State}
    {pages : List Bytes} (h : linkingTitles pattern files s = (.ok pages, s')) :
    ∀ t ∈ pages, Plain t := by
  induction files generalizing s s' pages with
  | nil =>
    obtain rfl := Except.ok.inj (Prod.mk.inj h).1
    simp
  | cons file files ih =>
    rw [linkingTitles, Run.bind_apply] at h
    rcases hload : loadPage (getNameWithoutSuffix file.name) s with ⟨e | content, s₁⟩
    · simp [hload] at h
    · rw [hload] at h
      simp only [Run.bind_apply] at h
      rcases hrest : linkingTitles pattern files s₁ with ⟨e | rest, s₂⟩
      · simp [hrest] at h
      · rw [hrest] at h
        obtain rfl := Except.ok.inj (Prod.mk.inj h).1
        intro t ht
        rcases List.mem_append.mp ht with ht | ht
        · have hname : getNameWithoutSuffix file.name = some t := by
            cases content with
            | none => simp at ht
            | some content =>
              simp only at ht
              split at ht
              · simpa using ht
              · simp at ht
          exact getNameWithoutSuffix_plain hname
        · exact ih hrest t ht

theorem createSpecialReverseLink_reads : Reads PlainPage createSpecialReverseLink := by
  refine .get_bind fun s => (isValidPage_reads _).bind_value fun s₁ valid s₂ hvalid => ?_
  refine .ite (fun _ => (reads_setStatus 404).bind fun _ => .pure _) fun hv => ?_
  obtain rfl : valid = true := by simpa using hv
  have hname := isValidPage_plain hvalid
  dsimp only
  split
  · exact .error _
  · refine .get_bind fun _ => (linkingTitles_reads _ _).bind_value fun _ pages _ hpages => ?_
    refine (reads_withFormatter fun env st hst t ht => ?_).bind fun _ => .pure _
    refine plainPage (specialReverseLinkTemplate_probed hname ?_ hst t ht)
    intro l hl u hu
    split at hl
    · cases hl
    · obtain rfl := Option.some.inj hl
      exact linkingTitles_plain hpages u ((List.perm_insertionSort _ pages).mem_iff.mp hu)

/-- The special pages open files of the root directory only. -/
theorem processSpecialPage_reads (special : SpecialPage) :
    Reads PlainPage (processSpecialPage special) := by
  cases special with
  | editPage => exact createSpecialEditPage_reads
  | indexPage => exact createSpecialIndexPage_reads
  | recentChanges => exact createSpecialRecentChanges_reads
  | searchPage => exact createSpecialSearchPage_reads
  | reverseLink => exact createSpecialReverseLink_reads

/-! ### GET -/

theorem Reads.mono {R' : Bytes → Prop} {x : Action α} (h : Reads R x) (hr : ∀ p, R p → R' p) :
    Reads R' x := by
  intro s
  obtain ⟨⟨paths, hopened, hpaths⟩, hdisk, hurl⟩ := h s
  exact ⟨⟨paths, hopened, fun p hp => hr p (hpaths p hp)⟩, hdisk, hurl⟩

theorem processRawFile_reads (fileName : Bytes) :
    Reads (fun _ => True) (processRawFile fileName) := by
  refine (reads_openFile trivial).bind fun file => ?_
  cases file with
  | none => exact (reads_setStatus 404).bind fun _ => .pure _
  | some file => exact .bind (.of_same fun _ => ⟨rfl, rfl, rfl⟩) fun _ => .pure _

theorem wikiPage_reads : Reads (fun _ => True) wikiPage := by
  refine reads_setFormatter.bind fun _ => .get_bind fun s => ?_
  refine .ite (fun _ => .pure _) fun _ => ?_
  cases specialPageCreator (urlTitle s.request.url) with
  | some special => exact (processSpecialPage_reads special).mono fun _ _ => trivial
  | none =>
    refine (reads_topicExists trivial).bind fun found => .ite (fun _ => ?_) fun _ => ?_
    · refine (reads_loadPage fun _ _ => trivial).bind fun content => ?_
      exact (reads_withFormatter fun _ _ _ _ _ => trivial).bind fun _ => .pure _
    · exact .get_bind fun _ => .pure _

theorem reads_answerPage (page : Option Bytes) : Reads (fun _ => True) (match page with
    | none => return false
    | some page => do
      Run.modify fun s =>
        { s with response := { s.response with
          header := createHttpHeader s.response.status s.response.contentType page.length
          content := page } }
      return true) := by
  cases page with
  | none => exact .pure _
  | some page => exact .bind (.of_same fun _ => ⟨rfl, rfl, rfl⟩) fun _ => .pure _

/-- A GET request opens no file for writing. -/
theorem handleGetRequest_reads : Reads (fun _ => True) handleGetRequest := by
  refine wikiPage_reads.bind fun page => ?_
  cases page with
  | none => exact .get_bind fun s => (processRawFile_reads _).bind reads_answerPage
  | some page => exact reads_answerPage (some page)

end MoonWiki
