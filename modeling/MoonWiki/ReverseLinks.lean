import MoonWiki.LuaErrors
import MoonWiki.PageLinks

/-! Links of a page, and the pages that are found to link to one. -/
namespace MoonWiki
open Lua

/-! ### The search for a name -/

/-- The name stands between two bytes that are no letters or digits. -/
def Bounded (t s : Bytes) : Prop :=
  ∃ u a b v, s = u ++ a :: (t ++ b :: v) ∧ isAlnum a = false ∧ isAlnum b = false

theorem singleMatch_other (b : Byte) :
    singleMatch b (.set true [.cls (ch 'w')]) = !isAlnum b := by
  simp only [singleMatch, matchBracketClass, List.any_cons, List.any_nil, Bool.or_false,
    Bool.bne_true]
  rfl

theorem matchHere_linkPattern (t v : Bytes) :
    (matchHere (linkPattern t).items v).isSome ↔
      ∃ a b w, v = a :: (t ++ b :: w) ∧ isAlnum a = false ∧ isAlnum b = false := by
  rw [matchHere, Option.isSome_map, linkPattern]
  constructor
  · intro h
    obtain ⟨r, hr⟩ := Option.isSome_iff_exists.mp h
    obtain ⟨a, v, rfl, ha, hr⟩ := doMatch_one_sound hr
    by_cases ht : t <+: v
    · obtain ⟨w, rfl⟩ := ht
      rw [doMatch_literal] at hr
      obtain ⟨b, w, rfl, hb, _⟩ := doMatch_one_sound hr
      rw [singleMatch_other] at ha hb
      exact ⟨a, b, w, rfl, by simpa using ha, by simpa using hb⟩
    · rw [doMatch_literal_none ht] at hr
      cases hr
  · rintro ⟨a, b, w, rfl, ha, hb⟩
    rw [doMatch_one (by simp [singleMatch_other, ha]), doMatch_literal,
      doMatch_one (by simp [singleMatch_other, hb])]
    rfl

theorem found_linkPattern {t s : Bytes} : found (linkPattern t) s = true ↔ Bounded t s := by
  have hanchor : (linkPattern t).anchor = false := rfl
  rw [found, find, hanchor, if_neg (by simp), findFrom_isSome]
  simp only [matchHere_linkPattern]
  constructor
  · rintro ⟨u, v, rfl, a, b, w, rfl, ha, hb⟩
    exact ⟨u, a, b, w, rfl, ha, hb⟩
  · rintro ⟨u, a, b, w, rfl, ha, hb⟩
    exact ⟨u, _, rfl, a, b, w, rfl, ha, hb⟩

/-- The pages the search is to find: listed pages with a text that has the name. -/
def Links (pattern : Pattern) (d : Disk) (p : Bytes) : Prop :=
  ∃ content, WikiStore.loadPage d p = some content ∧ found pattern content = true

/-- The loop collects the listed pages whose text has the name. -/
theorem linkingTitles_mem {pattern : Pattern} {files : List FileEntry} {s s' : State}
    {pages : List Bytes} (h : linkingTitles pattern files s = (.ok pages, s')) (p : Bytes) :
    p ∈ pages ↔ (∃ file ∈ files, getNameWithoutSuffix file.name = some p) ∧
      Links pattern s.disk p := by
  induction files generalizing s s' pages with
  | nil =>
    obtain rfl := Except.ok.inj (Prod.mk.inj h).1
    simp
  | cons file files ih =>
    rw [linkingTitles] at h
    dsimp only at h
    cases hname : getNameWithoutSuffix file.name with
    | none =>
      have herror : loadPage none s = (.error .concatNil, s) := rfl
      rw [hname, Run.bind_error herror] at h
      cases h
    | some t =>
      rw [hname, Run.bind_ok (loadPage_apply t s), Run.bind_apply] at h
      rcases hrest : linkingTitles pattern files
        { s with opened := s.opened ++ [(.read, pagePath t)] } with ⟨e | rest, s₂⟩
      · rw [hrest] at h
        cases h
      · rw [hrest] at h
        obtain rfl := Except.ok.inj (Prod.mk.inj h).1
        have hmem := ih hrest
        dsimp only at hmem
        rw [List.mem_append, hmem, List.exists_mem_cons_iff, hname, Option.some.injEq, or_and_right]
        refine or_congr_left ?_
        cases hload : WikiStore.loadPage s.disk t with
        | none =>
          refine iff_of_false (by simp) ?_
          rintro ⟨rfl, content, hcontent, _⟩
          rw [hload] at hcontent
          cases hcontent
        | some content =>
          constructor
          · intro hp
            dsimp only at hp
            split_ifs at hp with hfound
            · obtain rfl : p = t := by simpa using hp
              exact ⟨rfl, content, hload, hfound⟩
            · simp at hp
          · rintro ⟨rfl, content', hcontent, hfound⟩
            rw [hload] at hcontent
            obtain rfl := Option.some.inj hcontent
            simp [hfound]

theorem linkingTitles_state {pattern : Pattern} {files : List FileEntry} {s s' : State}
    {pages : List Bytes} (h : linkingTitles pattern files s = (.ok pages, s')) :
    ∃ opened, s' = { s with opened } := by
  induction files generalizing s pages with
  | nil => exact ⟨s.opened, (Prod.mk.inj h).2.symm⟩
  | cons file files ih =>
    rw [linkingTitles] at h
    dsimp only at h
    cases hname : getNameWithoutSuffix file.name with
    | none =>
      have herror : loadPage none s = (.error .concatNil, s) := rfl
      rw [hname, Run.bind_error herror] at h
      cases h
    | some t =>
      rw [hname, Run.bind_ok (loadPage_apply t s), Run.bind_apply] at h
      rcases hrest : linkingTitles pattern files
        { s with opened := s.opened ++ [(.read, pagePath t)] } with ⟨e | rest, s₂⟩
      · rw [hrest] at h
        cases h
      · rw [hrest] at h
        obtain rfl := (Prod.mk.inj h).2
        obtain ⟨opened, hs₂⟩ := ih hrest
        exact ⟨opened, hs₂⟩

/-! ### The answer -/

/-- The reverse links of `t` are answered with a page that lists `pages`: what the loop over the
listed files has collected, in order. -/
structure ListsReverse (s : State) (t : Bytes) (pages : List Bytes) : Prop where
  collected : ∃ s₁ s₂ found, s₁.disk = s.disk ∧
    linkingTitles (linkPattern t) (pageFiles s.disk) s₁ = (.ok found, s₂) ∧
      pages = sortTitles found
  answered : (createSpecialReverseLink s).1 = .ok (some
    (createHtmlPage (str "Reverse links for " ++ t)
      (specialReverseLinkTemplate (formatterEnv s.formatter s.disk) t
        (if pages = [] then none else some pages) { s.formatterState with probed := [] }).1))

section
variable {s : State} {t p content : Bytes} {pages : List Bytes}

theorem ListsReverse.mem_iff (h : ListsReverse s t pages) (p : Bytes) :
    p ∈ pages ↔ (∃ file ∈ pageFiles s.disk, getNameWithoutSuffix file.name = some p) ∧
      Links (linkPattern t) s.disk p := by
  obtain ⟨⟨s₁, s₂, found, hdisk, hrun, rfl⟩, _⟩ := h
  have hmem := linkingTitles_mem hrun p
  rw [hdisk] at hmem
  rw [sortTitles, List.mem_insertionSort, hmem]

/-- An existing page has an answer unless a file without a title is listed. -/
theorem exists_listsReverse_iff (ht : IsWikiWord t)
    (hpage : s.request.parameters.get (str "page") = some t)
    (hexists : WikiStore.topicExists s.disk t = true) :
    (∃ pages, ListsReverse s t pages) ↔ ∀ file ∈ pageFiles s.disk, ¬ LacksTitle file := by
  have hvalid : isValidPage (some t) s = (.ok true,
      { s with opened := s.opened ++ [(.read, pagePath t)] }) := by
    have hload : (WikiStore.loadPage s.disk t).isSome = true := hexists
    simp [isValidPage, isValidTitle_iff.mpr ht, hload]
  have hpattern := parse_linkPattern ht.alnum
  constructor
  · rintro ⟨pages, ⟨s₁, s₂, found, _, hrun, _⟩, _⟩ file hfile hlacks
    exact not_raises_of_ok hrun (raises_linkingTitles.mpr ⟨file, hfile, hlacks⟩)
  · intro h
    rcases hrun : linkingTitles (linkPattern t) (pageFiles s.disk)
      { s with opened := s.opened ++ [(.read, pagePath t)] } with ⟨e | found, s₂⟩
    · obtain ⟨file, hfile, hlacks⟩ := raises_linkingTitles.mp (raises_error hrun)
      exact (h file hfile hlacks).elim
    · refine ⟨sortTitles found,
        ⟨{ s with opened := s.opened ++ [(.read, pagePath t)] }, s₂, found, rfl, hrun, rfl⟩, ?_⟩
      obtain ⟨opened, rfl⟩ := linkingTitles_state hrun
      have htitle : (some t).getD [] = t := rfl
      rw [createSpecialReverseLink, Run.bind_ok (Run.get_apply s)]
      simp only [hpage]
      rw [Run.bind_ok hvalid]
      simp only [Bool.not_true, Bool.false_eq_true, ↓reduceIte, htitle, hpattern]
      rw [Run.bind_ok (Run.get_apply _), Run.bind_ok hrun]
      rfl

/-- The pages that link to `t`, as their text is found to have its name. -/
theorem listsReverse_iff (ht : IsWikiWord t)
    (hpage : s.request.parameters.get (str "page") = some t)
    (hexists : WikiStore.topicExists s.disk t = true)
    (hlisted : ∃ file ∈ pageFiles s.disk, getNameWithoutSuffix file.name = some p)
    (hcontent : WikiStore.loadPage s.disk p = some content) :
    (∃ pages, ListsReverse s t pages ∧ p ∈ pages) ↔
      Bounded t content ∧ ∀ file ∈ pageFiles s.disk, ¬ LacksTitle file := by
  have hlinks : Links (linkPattern t) s.disk p ↔ Bounded t content := by
    simp [Links, hcontent, found_linkPattern]
  rw [← exists_listsReverse_iff ht hpage hexists]
  constructor
  · rintro ⟨pages, h, hp⟩
    exact ⟨hlinks.mp ((h.mem_iff p).mp hp).2, pages, h⟩
  · rintro ⟨hbounded, pages, h⟩
    exact ⟨pages, h, (h.mem_iff p).mpr ⟨hlisted, hlinks.mpr hbounded⟩⟩

end

/-- The formatter links a WikiWord of the page to the existing page `t` by itself. -/
def AutoLinked (d : Disk) (content t : Bytes) : Prop :=
  ∃ call ∈ pageCalls (formatterEnv .wiki d) content {}, call.text = none ∧
    call.target (formatterEnv .wiki d) = .existing t

instance (d : Disk) (content t : Bytes) : Decidable (AutoLinked d content t) :=
  inferInstanceAs (Decidable (∃ call ∈ pageCalls (formatterEnv .wiki d) content {}, _ ∧ _))

/-- An automatic link is found in reverse exactly when the text of its page has the name between
two bytes that are no letters or digits, and every listed file has a title. -/
theorem autoLinked_listed_iff {s : State} {t p content : Bytes} (ht : IsWikiWord t)
    (hexists : WikiStore.topicExists s.disk t = true)
    (hpage : s.request.parameters.get (str "page") = some t)
    (hlisted : ∃ file ∈ pageFiles s.disk, getNameWithoutSuffix file.name = some p)
    (hcontent : WikiStore.loadPage s.disk p = some content) :
    (AutoLinked s.disk content t → ∃ pages, ListsReverse s t pages ∧ p ∈ pages) ↔
      (AutoLinked s.disk content t →
        Bounded t content ∧ ∀ file ∈ pageFiles s.disk, ¬ LacksTitle file) :=
  forall_congr' fun _ => listsReverse_iff ht hpage hexists hlisted hcontent

/-- The state of a request for the reverse links of a page. -/
def State.reversing (d : Disk) (t : Bytes) : State :=
  { State.fresh with
    request := { parameters := .set .empty (str "page") t }
    disk := d }

theorem autoLinked_listed_between_blanks :
    let d := Disk.ofPages [(str "FooBar", []), (str "BazQux", str "see FooBar now")]
    AutoLinked d (str "see FooBar now") (str "FooBar") ∧
      ∃ pages, ListsReverse (.reversing d (str "FooBar")) (str "FooBar") pages ∧
        str "BazQux" ∈ pages := by
  intro d
  have hauto : AutoLinked d (str "see FooBar now") (str "FooBar") := by decide +kernel
  have hiff := autoLinked_listed_iff (s := .reversing d (str "FooBar")) (t := str "FooBar")
    (p := str "BazQux") (isValidTitle_iff.mp (by decide)) (by decide) rfl (by decide)
    (by decide : WikiStore.loadPage d (str "BazQux") = some (str "see FooBar now"))
  refine ⟨hauto, hiff.mpr (fun _ => ⟨found_linkPattern.mp (by decide), ?_⟩) hauto⟩
  unfold LacksTitle
  decide

/-- A page whose text is the name alone. -/
theorem autoLinked_alone_not_listed :
    let d := Disk.ofPages [(str "FooBar", []), (str "BazQux", str "FooBar")]
    AutoLinked d (str "FooBar") (str "FooBar") ∧
      WikiStore.loadPage d (str "BazQux") = some (str "FooBar") ∧
      ¬ ∃ pages, ListsReverse (.reversing d (str "FooBar")) (str "FooBar") pages ∧
        str "BazQux" ∈ pages := by
  intro d
  have hload : WikiStore.loadPage d (str "BazQux") = some (str "FooBar") := by decide
  have hbounded : ¬ Bounded (str "FooBar") (str "FooBar") := by
    rw [← found_linkPattern]
    decide
  refine ⟨by decide +kernel, hload, fun h => hbounded ?_⟩
  exact ((listsReverse_iff (isValidTitle_iff.mp (by decide)) rfl (by decide) (by decide)
    hload).mp h).1

end MoonWiki
